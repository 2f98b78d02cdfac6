import LetLang.Proofs.Activation

/-! # A call does not see its caller

Two machines may have the same globals, the same objects, the same output and the same number
of active calls, and else be in the middle of quite different calls.  Whatever is called in
both of them ends alike.

* `Scopes.Linked`     how the frames of a stack hang together
* `SameEnd`           two runs with the same value or the same error, in related states
* `Exec.Detached`     a computation that depends on nothing but the globals and the world
* `Exec.Blind`        a computation that depends on the visible frames only, and not on their
  positions
* `call_ignores_caller`   the same call has the same outcome below every caller

A statement of the called method is blind, since it finds its names in the frames of its own
call and then in the global one; a whole call is detached, since its frames are gone when it
ends.  Each follows from the other, by induction on the levels of calls. -/

namespace LetLang

open Scopes Exec

/-! ## Functions below any caller -/

/-- The frames of a stack hang together: names that are not found in one of them are looked up
    in one below it and at last in the global frame, the only one that has functions. -/
structure Scopes.Linked {V F : Type} (s : Scopes V F) : Prop where
  rooted : s.Rooted
  current_lt : s.current < s.frames.size
  parent_lt : ∀ i f, 0 < i → s.frames[i]? = some f → ∃ p < i, f.parent = some p
  functionsGlobal : s.FunctionsGlobal

namespace Scopes.Linked

variable {V F : Type} {s : Scopes V F}

/-- A search for a function goes down to the global frame, since no other one has any. -/
private theorem searchFrom_function (h : s.Linked) (key : FunctionKey) (n i : Nat) (hn : i < n)
    (hi : i < s.frames.size) :
    (searchFrom s.frames (·.functions.get? key) n i).map (·.2) =
      s.found (·.functions.get? key) 0 := by
  -- Parents have lower positions, so as many steps as the position is high are enough.
  induction n generalizing i with
  | zero => omega
  | succ n ih =>
    by_cases hzero : i = 0
    · subst hzero
      obtain ⟨f, hf, hparent⟩ := h.rooted
      simp only [searchFrom, found, hf, hparent, Option.bind_some]
      cases f.functions.get? key <;> rfl
    · obtain ⟨f, hf⟩ : ∃ f, s.frames[i]? = some f := ⟨_, Array.getElem?_eq_getElem hi⟩
      obtain ⟨p, hp, hparent⟩ := h.parent_lt i f (by omega) hf
      have hempty := h.functionsGlobal i f (by omega) hf
      simp only [searchFrom, hf, hempty, Table.get?_empty, hparent]
      exact ih p (by omega) (by omega)

/-- A function is found in the global frame, whatever frame is current. -/
theorem function?_eq (h : s.Linked) (name : String) (arity : Nat) :
    s.function? name arity = s.found (·.functions.get? (name, arity)) 0 :=
  h.searchFrom_function (name, arity) s.frames.size s.current h.current_lt h.current_lt

/-- Frames hang together alike in stacks of one shape. -/
theorem sameShape {s' : Scopes V F} (h : s.Linked) (hs : SameShape s s') : s'.Linked where
  rooted := hs.rooted h.rooted
  current_lt := by rw [hs.current, hs.size]; exact h.current_lt
  parent_lt := by
    intro i f' hi hf'
    have hsk := hs.skeleton i
    rw [hf', Option.map_some] at hsk
    obtain ⟨f, hf, heq⟩ := Option.map_eq_some_iff.mp hsk.symm
    obtain ⟨p, hp, hparent⟩ := h.parent_lt i f hi hf
    exact ⟨p, hp, (Prod.mk.inj heq).1.symm.trans hparent⟩
  functionsGlobal := hs.functionsGlobal h.functionsGlobal

/-- A frame that hangs on one of the stack may be entered. -/
theorem pushChildOf (h : s.Linked) {parent : FrameId} (hp : parent < s.frames.size) :
    (s.pushChildOf parent).Linked where
  rooted := by
    obtain ⟨f, hf, hparent⟩ := h.rooted
    exact ⟨f, (pushChildOf_frame_lt s parent h.rooted.size_pos).trans hf, hparent⟩
  current_lt := by rw [pushChildOf_current, pushChildOf_size]; exact Nat.lt_succ_self _
  parent_lt := by
    intro i f hi hf
    have hlt := (Array.getElem?_eq_some_iff.mp hf).1
    rw [pushChildOf_size] at hlt
    -- The frames below are as before, and the new one has an older parent.
    by_cases hi' : i < s.frames.size
    · exact h.parent_lt i f hi ((pushChildOf_frame_lt s parent hi').symm.trans hf)
    · obtain rfl : i = s.frames.size := by omega
      rw [pushChildOf_frame_size] at hf
      cases hf
      exact ⟨parent, hp, rfl⟩
  functionsGlobal := h.functionsGlobal.pushChildOf parent

/-- At rest there is only the global frame. -/
private theorem of_resting {m : Machine} (h : m.Resting) : m.scopes.Linked where
  rooted := h.located.rooted
  current_lt := by rw [h.located.current_eq, h.located.size_eq]; exact Nat.zero_lt_one
  parent_lt := by
    intro i f hi hf
    have hlt := (Array.getElem?_eq_some_iff.mp hf).1
    have hsize := h.located.size_eq
    omega
  functionsGlobal := h.functionsGlobal

end Scopes.Linked

/-- Whatever a task starts finds the frames hanging together. -/
private theorem Enters.linked {env : Env} {a a' : Activation} (h : Enters env a a') (ha : a.Ready)
    (hl : a.machine.scopes.Linked) : a'.machine.scopes.Linked := by
  have hinv := quiet_invokeWithin env
  -- What runs before the new task keeps the shape of the stack; a call and a block add a frame
  -- whose parent exists.
  cases h with
  | right hrun _ => exact hl.sameShape (ha.shape_of_quiet (quiet_evaluate env (hinv _) _) hrun)
  | callFunction hrun =>
    exact hl.sameShape (ha.shape_of_quiet (quiet_evaluateAll env (hinv _) _) hrun)
  | invokeArguments hrun _ =>
    exact hl.sameShape (ha.shape_of_quiet (quiet_evaluate env (hinv _) _) hrun)
  | tail hrun => exact hl.sameShape (ha.shape_of_quiet (quiet_evaluate env (hinv _) _) hrun)
  | @body n m name values method m' _ _ hrun =>
    have hkeep := Ends.of_ok (tidy_defineParameters env (hinv n) method.parameters values
      { m with calls := m.calls + 1, scopes := m.scopes.pushChildOf global } _ 0
      ha.rooted.enterCall) hrun
    exact (hl.pushChildOf ha.rooted.size_pos).sameShape hkeep.shape
  | assignedField hrun =>
    exact hl.sameShape (ha.shape_of_quiet (quiet_evaluate env (hinv _) _) hrun)
  | ifBody hrun => exact hl.sameShape (ha.shape_of_quiet (quiet_test env (hinv _) _) hrun)
  | forRounds hrun _ =>
    exact hl.sameShape (ha.shape_of_quiet (quiet_evaluate env (hinv _) _) hrun)
  | next hrun => exact hl.sameShape (ha.shape_of_tidy rfl (tidy_statement env (hinv _) _) hrun)
  | blockBody => exact hl.pushChildOf hl.current_lt
  | @roundBody n m _ body _ _ hrun =>
    have hpush : Activation.Ready ⟨n, .statements body, { m with scopes := m.scopes.push }⟩ :=
      ha.push rfl
    exact (hl.pushChildOf hl.current_lt).sameShape
      (hpush.shape_of_tidy rfl (tidy_defineVariable _ _) hrun)
  | nextRound hrun =>
    exact hl.sameShape (ha.shape_of_tidy rfl (tidy_round env (hinv _) _ _ _) hrun)
  | loopBody hrun => exact hl.sameShape (ha.shape_of_quiet (quiet_test env (hinv _) _) hrun)
  | @loopNext n _ _ body _ m' _ htest hbody =>
    have hshape := ha.shape_of_quiet (quiet_test env (hinv _) _) htest
    have hmid : Activation.Ready ⟨n, .block body, m'⟩ := ha.after hshape (fun _ => rfl)
    exact (hl.sameShape hshape).sameShape
      (hmid.shape_of_tidy rfl (tidy_statements env (hinv _) _).inBlock hbody)
  | _ => exact hl

/-- In every state that a run comes to the frames hang together. -/
private theorem Reached.linked {env : Env} {source : Source} {start : Machine} {a : Activation}
    (h : Reached env source start a) (hstart : start.Resting) : a.machine.scopes.Linked := by
  induction h with
  -- Fields and methods leave the session at rest.
  | field _ hrun =>
    have hrest := (ends_forM (fun d _ _ h => Machine.Resting.ends_declare env d h)
      hstart).of_ok hrun
    exact .of_resting hrest
  | main hfields hmethods =>
    have hrest := (ends_forM (fun d _ _ h => Machine.Resting.ends_declare env d h)
      hstart).of_ok hfields
    have hrest' := (ends_forM (fun method _ _ h => Machine.Resting.ends_defineMethod method h)
      hrest).of_ok hmethods
    exact .of_resting hrest'
  | step hreached hstep ih => exact hstep.linked (hreached.ready hstart) ih

/-! ## Two runs side by side -/

section SameEnd

variable {ε σ α β : Type}

/-- Both runs end with the same value, or both with the same error, in states of which `R`
    holds. -/
def SameEnd (R : σ → σ → Prop) (x y : EStateM.Result ε σ α) : Prop :=
  match x, y with
  | .ok a s, .ok b t => a = b ∧ R s t
  | .error e s, .error e' t => e = e' ∧ R s t
  | _, _ => False

variable {R : σ → σ → Prop} {s t : σ}

/-- Two runs that end alike go on alike. -/
theorem SameEnd.bind {x : EStateM ε σ α} {f : α → EStateM ε σ β} (h : SameEnd R (x s) (x t))
    (hf : ∀ a s' t', R s' t' → SameEnd R (f a s') (f a t')) :
    SameEnd R ((x >>= f) s) ((x >>= f) t) := by
  simp only [Bind.bind, EStateM.bind]
  cases hs : x s <;> cases ht : x t <;> rw [hs, ht] at h
  · obtain ⟨rfl, hR⟩ := h
    exact hf _ _ _ hR
  · exact h.elim
  · exact h.elim
  · exact h

/-- A weaker relation between the states follows from a stronger one. -/
theorem SameEnd.imp {R' : σ → σ → Prop} {x y : EStateM.Result ε σ α} (h : SameEnd R x y)
    (hR : ∀ s' t', R s' t' → R' s' t') : SameEnd R' x y := by
  cases x <;> cases y
  · exact ⟨h.1, hR _ _ h.2⟩
  · exact h.elim
  · exact h.elim
  · exact ⟨h.1, hR _ _ h.2⟩

/-- What is known of each run alone can be added to what relates the two. -/
private theorem SameEnd.and_ends {x : EStateM ε σ α} {P P' : σ → Prop} (h : SameEnd R (x s) (x t))
    (hs : Ends x s (fun _ => P) (fun _ => P)) (ht : Ends x t (fun _ => P') (fun _ => P')) :
    SameEnd (fun s' t' => R s' t' ∧ P s' ∧ P' t') (x s) (x t) := by
  unfold Ends at hs ht
  cases hx : x s <;> cases hy : x t <;> rw [hx] at h hs <;> rw [hy] at h ht
  · exact ⟨h.1, h.2, hs, ht⟩
  · exact h.elim
  · exact h.elim
  · exact ⟨h.1, h.2, hs, ht⟩

end SameEnd

/-- The two machines differ at most in frames above the global one. -/
structure Machine.SameOutside (m₁ m₂ : Machine) : Prop where
  rooted_left : m₁.scopes.Rooted
  rooted_right : m₂.scopes.Rooted
  global_eq : m₁.scopes.frames[0]? = m₂.scopes.frames[0]?
  world_eq : m₁.world = m₂.world
  calls_eq : m₁.calls = m₂.calls

/-- The same is visible in both machines, from frame `b₁` on in the first one and from frame
    `b₂` on in the second. -/
structure Machine.Alike (b₁ b₂ k : Nat) (m₁ m₂ : Machine) : Prop where
  left : Located b₁ k m₁.scopes
  right : Located b₂ k m₂.scopes
  outside : m₁.SameOutside m₂
  vars_eq : ∀ j < k, m₁.scopes.frames[b₁ + j]?.map (·.vars) = m₂.scopes.frames[b₂ + j]?.map (·.vars)

namespace Machine.SameOutside

variable {m₁ m₂ m₁' m₂' : Machine}

/-- A called method sees an empty frame of its own in both machines. -/
theorem enterCall (h : m₁.SameOutside m₂) :
    Alike m₁.scopes.frames.size m₂.scopes.frames.size 1
      { m₁ with calls := m₁.calls + 1, scopes := m₁.scopes.pushChildOf global }
      { m₂ with calls := m₂.calls + 1, scopes := m₂.scopes.pushChildOf global } where
  left := h.rooted_left.enterCall
  right := h.rooted_right.enterCall
  outside := by
    refine ⟨h.rooted_left.enterCall.rooted, h.rooted_right.enterCall.rooted, ?_, h.world_eq,
      congrArg (· + 1) h.calls_eq⟩
    show (m₁.scopes.pushChildOf _).frames[0]? = (m₂.scopes.pushChildOf _).frames[0]?
    rw [pushChildOf_frame_lt _ _ h.rooted_left.size_pos,
      pushChildOf_frame_lt _ _ h.rooted_right.size_pos]
    exact h.global_eq
  vars_eq := by
    intro j hj
    -- The frame of the call is the only one that is visible beside the global one.
    obtain rfl : j = 0 := by omega
    show (m₁.scopes.pushChildOf _).frames[_ + 0]?.map _ =
      (m₂.scopes.pushChildOf _).frames[_ + 0]?.map _
    rw [Nat.add_zero, Nat.add_zero, pushChildOf_frame_size, pushChildOf_frame_size]
    rfl

/-- After the call both machines are back with their callers. -/
private theorem leaveCall (h : m₁.SameOutside m₂)
    (hs₁ : SameShape (m₁.scopes.pushChildOf global) m₁'.scopes)
    (hs₂ : SameShape (m₂.scopes.pushChildOf global) m₂'.scopes) (h' : m₁'.SameOutside m₂') :
    SameOutside { m₁' with calls := m₁'.calls - 1, scopes := m₁'.scopes.pop }
      { m₂' with calls := m₂'.calls - 1, scopes := m₂'.scopes.pop } := by
  have hpos₁ := h.rooted_left.size_pos
  have hpos₂ := h.rooted_right.size_pos
  refine ⟨(hs₁.pop hpos₁).rooted h.rooted_left, (hs₂.pop hpos₂).rooted h.rooted_right, ?_,
    h'.world_eq, congrArg (· - 1) h'.calls_eq⟩
  show m₁'.scopes.pop.frames[0]? = m₂'.scopes.pop.frames[0]?
  rw [pop_frame_of_sameShape_push hs₁ hpos₁ hpos₁, pop_frame_of_sameShape_push hs₂ hpos₂ hpos₂]
  exact h'.global_eq

end Machine.SameOutside

namespace Machine.Alike

variable {b₁ b₂ k : Nat} {m₁ m₂ m₁' m₂' : Machine}

/-- The same variables are found in frames that correspond to each other. -/
private theorem found_var (h : Alike b₁ b₂ k m₁ m₂) (name : String) {j : Nat} (hj : j ≤ k) :
    m₁.scopes.found (·.vars.get? name) (place b₁ j) =
      m₂.scopes.found (·.vars.get? name) (place b₂ j) := by
  cases j with
  | zero => exact congrArg (·.bind (·.vars.get? name)) h.outside.global_eq
  | succ j =>
    have hvars := congrArg (·.bind (·.get? name)) (h.vars_eq j (by omega))
    simp only [Option.bind_map] at hvars
    exact hvars

/-- A search stops at the same one of the visible frames. -/
theorem search_var (h : Alike b₁ b₂ k m₁ m₂) (name : String) :
    (m₁.scopes.search (·.vars.get? name) = none ∧ m₂.scopes.search (·.vars.get? name) = none) ∨
    ∃ j ≤ k, ∃ v, m₁.scopes.search (·.vars.get? name) = some (place b₁ j, v) ∧
      m₂.scopes.search (·.vars.get? name) = some (place b₂ j, v) := by
  rw [search_eq_nearest h.left, search_eq_nearest h.right]
  have hfrom : ∀ j ≤ k,
      (m₁.scopes.nearest b₁ (·.vars.get? name) j = none ∧
        m₂.scopes.nearest b₂ (·.vars.get? name) j = none) ∨
      ∃ i ≤ k, ∃ v, m₁.scopes.nearest b₁ (·.vars.get? name) j = some (place b₁ i, v) ∧
        m₂.scopes.nearest b₂ (·.vars.get? name) j = some (place b₂ i, v) := by
    -- Induction over the visible frames, from the global one up: the two stacks agree frame by
    -- frame, so the search stops at the same place in both.
    intro j hj
    induction j with
    | zero =>
      have hfound := h.found_var name (Nat.zero_le k)
      simp only [place_zero] at hfound
      simp only [nearest, hfound]
      cases hv : m₂.scopes.found (·.vars.get? name) 0 with
      | none => exact .inl ⟨rfl, rfl⟩
      | some v => exact .inr ⟨0, Nat.zero_le k, v, rfl, rfl⟩
    | succ j ih =>
      have hfound := h.found_var name hj
      simp only [place_succ] at hfound
      simp only [nearest, hfound]
      cases hv : m₂.scopes.found (·.vars.get? name) (b₂ + j) with
      | none => exact ih (by omega)
      | some v => exact .inr ⟨j + 1, hj, v, rfl, rfl⟩
  exact hfrom k (Nat.le_refl k)

/-- The same functions are found. -/
theorem function?_eq (h : Alike b₁ b₂ k m₁ m₂) (name : String) (arity : Nat) :
    m₁.scopes.function? name arity = m₂.scopes.function? name arity := by
  rw [Scopes.function?_eq h.left, Scopes.function?_eq h.right, found, found, h.outside.global_eq]

/-- The same variable is stored in frames that correspond to each other. -/
theorem store (h : Alike b₁ b₂ k m₁ m₂) (j : Nat) (name : String) (value : Value) :
    Alike b₁ b₂ k { m₁ with scopes := m₁.scopes.store (place b₁ j) name value }
      { m₂ with scopes := m₂.scopes.store (place b₂ j) name value } := by
  have hb₁ := h.left.base_pos
  have hb₂ := h.right.base_pos
  have hleft := (sameShape_store m₁.scopes (place b₁ j) name value).located h.left
  have hright := (sameShape_store m₂.scopes (place b₂ j) name value).located h.right
  refine ⟨hleft, hright, ⟨hleft.rooted, hright.rooted, ?_, h.outside.world_eq,
    h.outside.calls_eq⟩, ?_⟩
  · show (m₁.scopes.store _ _ _).frames[0]? = (m₂.scopes.store _ _ _).frames[0]?
    rw [store_frame, store_frame, h.outside.global_eq]
    cases j with
    | zero => rfl
    | succ j =>
      rw [place_succ, place_succ, if_neg (by omega), if_neg (by omega)]
  · intro i hi
    show (m₁.scopes.store _ _ _).frames[b₁ + i]?.map _ =
      (m₂.scopes.store _ _ _).frames[b₂ + i]?.map _
    have hvars := h.vars_eq i hi
    rw [store_frame, store_frame]
    -- Positions are equal in one stack exactly if they are in the other.
    by_cases hij : j = i + 1
    · subst hij
      rw [place_succ, place_succ, if_pos rfl, if_pos rfl, Option.map_map, Option.map_map]
      have hinsert := congrArg (·.map (·.insert name value)) hvars
      simp only [Option.map_map] at hinsert
      exact hinsert
    · have hne : ∀ b, 0 < b → b + i ≠ place b j := by
        intro b hb heq
        exact hij ((place_inj hb).mp (heq.symm.trans (place_succ b i).symm))
      rw [if_neg (hne b₁ hb₁), if_neg (hne b₂ hb₂)]
      exact hvars

/-- A block is entered in both machines. -/
theorem push (h : Alike b₁ b₂ k m₁ m₂) :
    Alike b₁ b₂ (k + 1) { m₁ with scopes := m₁.scopes.push }
      { m₂ with scopes := m₂.scopes.push } where
  left := h.left.push
  right := h.right.push
  outside := by
    refine ⟨h.left.push.rooted, h.right.push.rooted, ?_, h.outside.world_eq, h.outside.calls_eq⟩
    show m₁.scopes.push.frames[0]? = m₂.scopes.push.frames[0]?
    rw [Scopes.push, Scopes.push, pushChildOf_frame_lt _ _ h.left.rooted.size_pos,
      pushChildOf_frame_lt _ _ h.right.rooted.size_pos]
    exact h.outside.global_eq
  vars_eq := by
    intro j hj
    show m₁.scopes.push.frames[b₁ + j]?.map _ = m₂.scopes.push.frames[b₂ + j]?.map _
    have hsize₁ := h.left.size_eq
    have hsize₂ := h.right.size_eq
    -- The new frame is empty in both; the others are where they were.
    by_cases hk : j = k
    · subst hk
      rw [Scopes.push, Scopes.push, ← hsize₁, ← hsize₂, pushChildOf_frame_size,
        pushChildOf_frame_size]
      rfl
    · rw [Scopes.push, Scopes.push, pushChildOf_frame_lt _ _ (by omega),
        pushChildOf_frame_lt _ _ (by omega)]
      exact h.vars_eq j (by omega)

/-- A block is left in both machines. -/
theorem pop (h : Alike b₁ b₂ k m₁ m₂)
    (hs₁ : SameShape m₁.scopes.push m₁'.scopes) (hs₂ : SameShape m₂.scopes.push m₂'.scopes)
    (h' : Alike b₁ b₂ (k + 1) m₁' m₂') :
    Alike b₁ b₂ k { m₁' with scopes := m₁'.scopes.pop } { m₂' with scopes := m₂'.scopes.pop } := by
  have hpos₁ := h.left.rooted.size_pos
  have hpos₂ := h.right.rooted.size_pos
  have hleft := (hs₁.pop hpos₁).located h.left
  have hright := (hs₂.pop hpos₂).located h.right
  -- The frames that stay are those that were there before the block.
  refine ⟨hleft, hright, ⟨hleft.rooted, hright.rooted, ?_, h'.outside.world_eq,
    h'.outside.calls_eq⟩, ?_⟩
  · show m₁'.scopes.pop.frames[0]? = m₂'.scopes.pop.frames[0]?
    rw [pop_frame_of_sameShape_push hs₁ hpos₁ hpos₁, pop_frame_of_sameShape_push hs₂ hpos₂ hpos₂]
    exact h'.outside.global_eq
  · intro j hj
    show m₁'.scopes.pop.frames[b₁ + j]?.map _ = m₂'.scopes.pop.frames[b₂ + j]?.map _
    have hsize₁ := h.left.size_eq
    have hsize₂ := h.right.size_eq
    rw [pop_frame_of_sameShape_push hs₁ hpos₁ (by omega),
      pop_frame_of_sameShape_push hs₂ hpos₂ (by omega)]
    exact h'.vars_eq j (by omega)

/-- Two machines that have kept their local frames and are the same outside. -/
theorem of_keeps (h : Alike b₁ b₂ k m₁ m₂) (hk₁ : m₁.Keeps m₁.scopes.frames.size m₁')
    (hk₂ : m₂.Keeps m₂.scopes.frames.size m₂') (h' : m₁'.SameOutside m₂') :
    Alike b₁ b₂ k m₁' m₂' where
  left := hk₁.shape.located h.left
  right := hk₂.shape.located h.right
  outside := h'
  vars_eq := by
    intro j hj
    -- The activation's own frames lie above the base and below the size, on both sides.
    have hb₁ := h.left.base_pos
    have hb₂ := h.right.base_pos
    have hsize₁ := h.left.size_eq
    have hsize₂ := h.right.size_eq
    rw [hk₁.locals _ (by omega) (by omega), hk₂.locals _ (by omega) (by omega)]
    exact h.vars_eq j hj

end Machine.Alike

namespace Exec

variable {α β : Type}

/-- Two bodies in scopes of their own end alike if they do without their scopes. -/
theorem sameEnd_inScope {R : Machine → Machine → Prop} {parent₁ parent₂ : FrameId}
    {body : Exec α} {m₁ m₂ : Machine}
    (h : SameEnd
      (fun m₁' m₂' =>
        R { m₁' with scopes := m₁'.scopes.pop } { m₂' with scopes := m₂'.scopes.pop })
      (body { m₁ with scopes := m₁.scopes.pushChildOf parent₁ })
      (body { m₂ with scopes := m₂.scopes.pushChildOf parent₂ })) :
    SameEnd R (inScope parent₁ body m₁) (inScope parent₂ body m₂) := by
  unfold inScope
  cases h₁ : body { m₁ with scopes := m₁.scopes.pushChildOf parent₁ } <;>
    cases h₂ : body { m₂ with scopes := m₂.scopes.pushChildOf parent₂ } <;>
    rw [h₁, h₂] at h <;> exact h

/-- Counting a call makes no difference between two runs. -/
theorem sameEnd_counted {R : Machine → Machine → Prop} {body : Exec α} {m₁ m₂ : Machine}
    (h : SameEnd
      (fun m₁' m₂' => R { m₁' with calls := m₁'.calls - 1 } { m₂' with calls := m₂'.calls - 1 })
      (body { m₁ with calls := m₁.calls + 1 }) (body { m₂ with calls := m₂.calls + 1 })) :
    SameEnd R (counted body m₁) (counted body m₂) := by
  unfold counted
  cases h₁ : body { m₁ with calls := m₁.calls + 1 } <;>
    cases h₂ : body { m₂ with calls := m₂.calls + 1 } <;>
    rw [h₁, h₂] at h <;> exact h

/-! ## Detached computations -/

/-- The computation depends on nothing but the globals, the world and the count of calls. -/
def Detached (x : Exec α) : Prop :=
  ∀ m₁ m₂ : Machine, m₁.SameOutside m₂ → SameEnd Machine.SameOutside (x m₁) (x m₂)

/-- A failure does not look at the caller. -/
private theorem detached_fail (e : RuntimeError) :
    Detached (fail e : Exec α) := fun _ _ h => ⟨rfl, h⟩

/-- A value at once depends on nothing. -/
private theorem detached_pure (a : α) : Detached (pure a) := fun _ _ h => ⟨rfl, h⟩

/-- A sequence is detached if its parts are. -/
theorem Detached.bind {x : Exec α} {f : α → Exec β} (hx : Detached x) (hf : ∀ a, Detached (f a)) :
    Detached (x >>= f) :=
  fun m₁ m₂ h => (hx m₁ m₂ h).bind fun a m₁' m₂' h' => hf a m₁' m₂' h'

/-- A native has no access to the scopes. -/
private theorem detached_ofNative (x : NativeM α) : Detached (ofNative x) := by
  intro m₁ m₂ h
  unfold ofNative
  rw [h.world_eq]
  cases x m₂.world <;> exact ⟨rfl, { h with world_eq := rfl }⟩

/-! ## Blind computations -/

/-- The computation, run inside a call, depends on nothing but what is visible. -/
def Blind (x : Exec α) : Prop :=
  ∀ (b₁ b₂ k : Nat) (m₁ m₂ : Machine), Machine.Alike b₁ b₂ (k + 1) m₁ m₂ →
    SameEnd (Machine.Alike b₁ b₂ (k + 1)) (x m₁) (x m₂)

/-- A detached computation that keeps the frames of its caller is blind. -/
theorem Detached.blind {x : Exec α} (h : Detached x) (hq : Quiet x) : Blind x := by
  intro b₁ b₂ k m₁ m₂ halike
  have hkeep₁ := hq m₁ halike.left.rooted _ (Nat.le_refl _)
  have hkeep₂ := hq m₂ halike.right.rooted _ (Nat.le_refl _)
  refine ((h m₁ m₂ halike.outside).and_ends hkeep₁ hkeep₂).imp ?_
  rintro m₁' m₂' ⟨hout, hk₁, hk₂⟩
  exact halike.of_keeps hk₁ hk₂ hout

/-- A value at once does not look below the call. -/
private theorem blind_pure (a : α) : Blind (pure a) := fun _ _ _ _ _ h => ⟨rfl, h⟩

/-- A failure does not depend on the frames. -/
private theorem blind_fail (e : RuntimeError) :
    Blind (fail e : Exec α) := fun _ _ _ _ _ h => ⟨rfl, h⟩

/-- A native does not depend on the frames. -/
private theorem blind_ofNative (x : NativeM α) : Blind (ofNative x) :=
  (detached_ofNative x).blind (quiet_ofNative x)

/-- A sequence is blind if its parts are. -/
theorem Blind.bind {x : Exec α} {f : α → Exec β} (hx : Blind x) (hf : ∀ a, Blind (f a)) :
    Blind (x >>= f) :=
  fun b₁ b₂ k m₁ m₂ h => (hx b₁ b₂ k m₁ m₂ h).bind fun a m₁' m₂' h' => hf a b₁ b₂ k m₁' m₂' h'

/-- A variable that a call can read is in its own frames or global. -/
private theorem blind_readVariable (name : String) : Blind (readVariable name) := by
  intro b₁ b₂ k m₁ m₂ h
  unfold readVariable lookup?
  obtain ⟨h₁, h₂⟩ | ⟨j, _, v, h₁, h₂⟩ := h.search_var name
  · rw [h₁, h₂]
    exact ⟨rfl, h⟩
  · rw [h₁, h₂]
    exact ⟨rfl, h⟩

/-- A variable is written in frames that correspond to each other. -/
private theorem blind_writeVariable (name : String) (value : Value) :
    Blind (writeVariable name value) := by
  intro b₁ b₂ k m₁ m₂ h
  unfold writeVariable
  rw [assign?_eq, assign?_eq]
  obtain ⟨h₁, h₂⟩ | ⟨j, _, v, h₁, h₂⟩ := h.search_var name
  · rw [h₁, h₂]
    exact ⟨rfl, h⟩
  · rw [h₁, h₂]
    exact ⟨rfl, h.store j name value⟩

/-- A definition goes into the frame on top, which belongs to the call. -/
private theorem blind_defineVariable (name : String) (value : Value) :
    Blind (defineVariable name value) := by
  intro b₁ b₂ k m₁ m₂ h
  -- Whether the name is taken is a matter of the current frame, which is the last visible one.
  have hfound := h.found_var name (Nat.le_refl (k + 1))
  rw [← h.left.current_eq, ← h.right.current_eq] at hfound
  have hstored := h.store (k + 1) name value
  rw [← h.left.current_eq, ← h.right.current_eq] at hstored
  unfold defineVariable changeScopes
  simp only [defineVariable_eq, hfound]
  cases m₂.scopes.found (·.vars.get? name) m₂.scopes.current with
  | none => exact ⟨rfl, hstored⟩
  | some v => exact ⟨rfl, h⟩

/-- A block that tidies up lets no one look below the call. -/
theorem Blind.inBlock {body : Exec α} (h : Blind body) (ht : Tidy body) : Blind (inBlock body) := by
  intro b₁ b₂ k m₁ m₂ halike
  have hpushed := halike.push
  have hkeep₁ := ht _ b₁ (k + 1) hpushed.left
  have hkeep₂ := ht _ b₂ (k + 1) hpushed.right
  apply sameEnd_inScope
  refine ((h b₁ b₂ (k + 1) _ _ hpushed).and_ends hkeep₁ hkeep₂).imp ?_
  -- The frame of the block is still the last one when the body ends.
  rintro m₁' m₂' ⟨hend, hk₁, hk₂⟩
  exact halike.pop hk₁.shape hk₂.shape hend

/-- A blind body makes a detached call: its own frame is the only local one that it sees, and
    that frame is gone afterwards. -/
theorem Blind.call {body : Exec α} (h : Blind body) (ht : Tidy body) :
    Detached (counted (inScope global body)) := by
  intro m₁ m₂ hout
  have hentered := hout.enterCall
  have hkeep₁ := ht _ m₁.scopes.frames.size 0 hentered.left
  have hkeep₂ := ht _ m₂.scopes.frames.size 0 hentered.right
  apply sameEnd_counted
  apply sameEnd_inScope
  refine ((h _ _ 0 _ _ hentered).and_ends hkeep₁ hkeep₂).imp ?_
  rintro m₁' m₂' ⟨hend, hk₁, hk₂⟩
  exact hout.leaveCall hk₁.shape hk₂.shape hend.outside

/-! ## The evaluator -/

/-- Methods are called without a look at the caller, and its frames are kept. -/
structure Secluded (inv : Invoke) : Prop where
  detached : ∀ method values, Detached (inv method values)
  quiet : ∀ method values, Quiet (inv method values)

section Evaluator

variable (env : Env) {inv : Invoke}

/-- A call of a native or of a method does not look below its caller's frames. -/
private theorem blind_call (hinv : Secluded inv) (name : String) (values : List Value) :
    Blind (call inv name values) := by
  have hfind : Blind (findFunction name values.length) := by
    intro b₁ b₂ k m₁ m₂ h
    unfold findFunction
    rw [h.function?_eq]
    cases m₂.scopes.function? name values.length <;> exact ⟨rfl, h⟩
  refine hfind.bind fun callable => ?_
  cases callable with
  | native native => exact blind_ofNative _
  | method method => exact (hinv.detached method values).blind (hinv.quiet method values)

/-- If calls are secluded, then all that statements are made of is blind.  It has to be tidy as
    well, since a block is left as it was entered only if its frame is the last one again. -/
private theorem lockstep_blind (hinv : Secluded inv) :
    Lockstep env env inv inv True fun x _ => Blind x ∧ Tidy x where
  objects_eq := rfl
  pure := fun a => ⟨blind_pure a, tidy_pure a⟩
  fail := fun e => ⟨blind_fail e, (quiet_fail e).tidy⟩
  bind := fun hx hf => ⟨hx.1.bind fun a => (hf a).1, hx.2.bind fun a => (hf a).2⟩
  readVariable := fun name => ⟨blind_readVariable name, (quiet_readVariable name).tidy⟩
  readField := fun _ _ => ⟨blind_ofNative _, (quiet_ofNative _).tidy⟩
  call := fun name values =>
    ⟨blind_call hinv name values, (quiet_call hinv.quiet name values).tidy⟩
  method := fun _ _ => ⟨blind_ofNative _, (quiet_ofNative _).tidy⟩
  writeVariable := fun name value =>
    ⟨blind_writeVariable name value, tidy_writeVariable name value⟩
  defineVariable := fun name value =>
    ⟨blind_defineVariable name value, tidy_defineVariable name value⟩
  -- Only blocks need both halves: that the body is tidy puts the stack in order again.
  inBlock := fun h => ⟨h.1.inBlock h.2, h.2.inBlock⟩
  writeField := fun _ _ _ => ⟨blind_ofNative _, (quiet_ofNative _).tidy⟩
  exhausted := fun _ =>
    ⟨rfl, fun _ _ _ _ _ h => ⟨rfl, h⟩, fun m b _ _ => .refl b m⟩

/-- A method is called without a look at the caller, however deep the calls in it go. -/
private theorem secluded_invokeWithin (n : Nat) : Secluded (invokeWithin env n) := by
  refine ⟨?_, quiet_invokeWithin env n⟩
  induction n with
  | zero => exact fun _ _ => detached_fail _
  | succ n ih =>
    intro method values
    have hinv : Secluded (invokeWithin env n) := ⟨ih, quiet_invokeWithin env n⟩
    obtain ⟨hblind, htidy⟩ := (lockstep_blind env hinv).methodBody method values (.inl trivial)
    intro m₁ m₂ hout
    show SameEnd _ ((if maxCalls ≤ m₁.calls then _ else _ : Exec Value) m₁)
      ((if maxCalls ≤ m₂.calls then _ else _ : Exec Value) m₂)
    -- Both machines have as many calls left.
    rw [hout.calls_eq]
    split
    · exact detached_fail _ m₁ m₂ hout
    · exact ((hblind.call htidy).bind fun completion => detached_pure _) m₁ m₂ hout

end Evaluator

end Exec

/-- A call has the same outcome whoever makes it.  The frames of every state that a run comes to
    hang together; and if those of two machines do, which have the same global frame, the same
    world and the same number of active calls, then calling the same function with the same
    values gives the same value or the same error in both, or goes on for too long in both, and
    leaves the same global frame and the same world. -/
theorem call_ignores_caller :
    (∀ (s : Session) (env : Env) (source : Source) (a : Activation), s.Reachable →
      Reached env source s.machine a → a.machine.scopes.Linked) ∧
    ∀ (env : Env) (levels : Nat) (name : String) (values : List Value) (m₁ m₂ : Machine),
      m₁.scopes.Linked → m₂.scopes.Linked →
      m₁.scopes.frames[0]? = m₂.scopes.frames[0]? → m₁.world = m₂.world → m₁.calls = m₂.calls →
      SameEnd
        (fun m₁' m₂' => m₁'.scopes.frames[0]? = m₂'.scopes.frames[0]? ∧ m₁'.world = m₂'.world)
        (call (invokeWithin env levels) name values m₁)
        (call (invokeWithin env levels) name values m₂) := by
  refine ⟨fun s env source a hs ha => ha.linked hs.resting, ?_⟩
  intro env levels name values m₁ m₂ h₁ h₂ hglobal hworld hcalls
  have hout : m₁.SameOutside m₂ := ⟨h₁.rooted, h₂.rooted, hglobal, hworld, hcalls⟩
  -- Both machines find the same function, since there is none in a frame of a caller.
  have hfunction : m₁.scopes.function? name values.length =
      m₂.scopes.function? name values.length := by
    rw [h₁.function?_eq, h₂.function?_eq, found, found, hglobal]
  have hfind : SameEnd Machine.SameOutside (findFunction name values.length m₁)
      (findFunction name values.length m₂) := by
    unfold findFunction
    rw [hfunction]
    cases m₂.scopes.function? name values.length <;> exact ⟨rfl, hout⟩
  refine (hfind.bind ?_).imp fun m₁' m₂' hend => ⟨hend.global_eq, hend.world_eq⟩
  intro callable m₁' m₂' hout'
  cases callable with
  | native native => exact detached_ofNative _ m₁' m₂' hout'
  | method method => exact (secluded_invokeWithin env levels).detached method values m₁' m₂' hout'

/-- A global `x` and a method `get` that reads it. -/
def readingGlobal : Scopes Value Callable :=
  ⟨#[⟨none, none, ⟨[("x", .integer 1)]⟩,
    ⟨[(("get", 0), .method ⟨0, "get", [], none, [.returns (.var 1 "x")]⟩)]⟩⟩], 0⟩

/-- Called from a method with an `x` of its own, and from a block in it with yet another one,
    `get` gives the global `x`. -/
theorem get_ignores_caller :
    let outer := (readingGlobal.pushChildOf global).store 1 "x" (.integer 2)
    let inner := outer.push.store 2 "x" (.integer 3)
    (∃ m, call (invoke ⟨[], 0⟩) "get" [] ⟨inner, default, 1⟩ = .ok (.integer 1) m) ∧
    SameEnd
      (fun m₁' m₂' => m₁'.scopes.frames[0]? = m₂'.scopes.frames[0]? ∧ m₁'.world = m₂'.world)
      (call (invoke ⟨[], 0⟩) "get" [] ⟨inner, default, 1⟩)
      (call (invoke ⟨[], 0⟩) "get" [] ⟨outer, default, 1⟩) := by
  intro outer inner
  have hrest : Machine.Resting ⟨readingGlobal, default, 0⟩ :=
    ⟨⟨Nat.zero_lt_one, rfl, rfl, ⟨_, rfl, rfl⟩, fun j hj => by omega⟩, rfl⟩
  have houter : outer.Linked :=
    ((Linked.of_resting hrest).pushChildOf Nat.zero_lt_one).sameShape (sameShape_store _ _ _ _)
  -- One caller is a block inside the other.
  have hinner : inner.Linked :=
    (houter.pushChildOf houter.current_lt).sameShape (sameShape_store _ _ _ _)
  exact ⟨⟨_, rfl⟩, call_ignores_caller.2 ⟨[], 0⟩ _ "get" [] ⟨inner, default, 1⟩
    ⟨outer, default, 1⟩ hinner houter rfl rfl rfl⟩

end LetLang
