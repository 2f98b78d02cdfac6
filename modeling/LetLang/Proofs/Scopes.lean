import LetLang.Scopes

/-! # Visible frames

While a method runs, the frames in which its names are looked up are the global one and
the last `k` of the stack, from some frame `b` on: the frame of the call and, one inside the
other, the blocks around the current statement.  `Located b k s` says so, and `place b j` is
the position of the `j`-th of them.  The frames between the global one and `b` belong to the
callers and cannot be seen.

* `search_eq_some_iff`   a lookup answers from the nearest visible frame
* `function?_eq`         functions are found in the global frame only
* `SameShape`            two stacks that differ in nothing but variables
* `SameShape.pop`        leaving a frame undoes entering it
* `Grows.pop`            leaving a block forgets what it defined
-/

namespace LetLang

/-- What a frame consists of besides its variables: its links and its functions. -/
def Frame.skeleton {V F : Type} (f : Frame V F) :
    Option FrameId × Option FrameId × Table FunctionKey F :=
  (f.parent, f.previous, f.functions)

namespace Scopes

variable {V F α : Type}

/-! ## Positions -/

/-- The position of the `j`-th visible frame if the local frames start at `b`: the global
    frame comes first. -/
def place (b : Nat) : Nat → Nat
  | 0 => global
  | j + 1 => b + j

/-- The farthest visible frame is the global one. -/
@[simp] theorem place_zero (b : Nat) : place b 0 = 0 := rfl

/-- The others lie above the base of the call. -/
@[simp] theorem place_succ (b j : Nat) : place b (j + 1) = b + j := rfl

/-- Different visible frames have different positions. -/
theorem place_inj {b i j : Nat} (hb : 0 < b) : place b i = place b j ↔ i = j := by
  cases i <;> cases j <;> simp only [place_zero, place_succ] <;> omega

/-- The visible frames of `s` are the global one and the last `k`, which start at `b`. -/
structure Located (b k : Nat) (s : Scopes V F) : Prop where
  base_pos : 0 < b
  size_eq : s.frames.size = b + k
  current_eq : s.current = place b k
  globalFrame : ∃ f, s.frames[0]? = some f ∧ f.parent = none
  localFrame : ∀ j < k, ∃ f, s.frames[b + j]? = some f ∧
    f.parent = some (place b j) ∧ f.functions = .empty

/-- The first frame is there and hangs on no other. -/
def Rooted (s : Scopes V F) : Prop := ∃ f, s.frames[0]? = some f ∧ f.parent = none

/-- There is a global frame, so the stack is not empty. -/
theorem Rooted.size_pos {s : Scopes V F} (h : s.Rooted) : 0 < s.frames.size := by
  obtain ⟨f, hf, _⟩ := h
  exact (Array.getElem?_eq_some_iff.mp hf).1

/-- A stack inside a call stands on the global frame. -/
theorem Located.rooted {b k : Nat} {s : Scopes V F} (h : Located b k s) : s.Rooted :=
  h.globalFrame

/-- The stack with only the global frame. -/
theorem located_new : Located 1 0 (new : Scopes V F) where
  base_pos := by omega
  size_eq := rfl
  current_eq := rfl
  globalFrame := ⟨_, rfl, rfl⟩
  localFrame := fun j hj => by omega

/-- Every visible frame is there. -/
theorem Located.frame {b k j : Nat} {s : Scopes V F} (h : Located b k s) (hj : j ≤ k) :
    ∃ f, s.frames[place b j]? = some f := by
  cases j with
  | zero =>
    obtain ⟨f, hf, _⟩ := h.globalFrame
    exact ⟨f, hf⟩
  | succ j =>
    obtain ⟨f, hf, _⟩ := h.localFrame j (by omega)
    exact ⟨f, hf⟩

/-! ## Looking up -/

/-- What `get` finds in the frame at position `i`. -/
def found (s : Scopes V F) (get : Frame V F → Option α) (i : Nat) : Option α :=
  s.frames[i]?.bind get

/-- What `get` finds in the nearest of the first `j + 1` visible frames, and where. -/
def nearest (s : Scopes V F) (b : Nat) (get : Frame V F → Option α) :
    Nat → Option (FrameId × α)
  | 0 => (s.found get 0).map (0, ·)
  | j + 1 =>
    match s.found get (b + j) with
    | some a => some (b + j, a)
    | none => nearest s b get j

/-- With enough steps, the search from a visible frame looks at the visible frames below it. -/
private theorem searchFrom_place {b k : Nat} {s : Scopes V F} (h : Located b k s)
    (get : Frame V F → Option α) (n j : Nat) (hn : j < n) (hj : j ≤ k) :
    searchFrom s.frames get n (place b j) = s.nearest b get j := by
  -- The fuel only has to exceed the position in the chain, so it is generalized.
  induction j generalizing n with
  | zero =>
    obtain ⟨f, hf, hp⟩ := h.globalFrame
    obtain ⟨n, rfl⟩ : ∃ n', n = n' + 1 := ⟨n - 1, by omega⟩
    simp only [place_zero, searchFrom, nearest, found, hf, hp, Option.bind_some]
    cases get f <;> rfl
  | succ j ih =>
    obtain ⟨f, hf, hp, _⟩ := h.localFrame j (by omega)
    obtain ⟨n, rfl⟩ : ∃ n', n = n' + 1 := ⟨n - 1, by omega⟩
    simp only [place_succ, searchFrom, nearest, found, hf, hp, Option.bind_some]
    cases get f with
    | some a => rfl
    -- Nothing here: the parent of the `j`-th local frame is the frame before it.
    | none => exact ih n (by omega) (by omega)

/-- A search goes through the visible frames from the nearest on. -/
theorem search_eq_nearest {b k : Nat} {s : Scopes V F} (h : Located b k s)
    (get : Frame V F → Option α) : s.search get = s.nearest b get k := by
  have hb := h.base_pos
  rw [search, h.current_eq]
  exact searchFrom_place h get _ k (by rw [h.size_eq]; omega) (Nat.le_refl k)

/-- The nearest frame that has something is the only one with nothing above it. -/
private theorem nearest_eq_some_iff {b : Nat} {s : Scopes V F} (get : Frame V F → Option α)
    (k : Nat) (i : FrameId) (a : α) :
    s.nearest b get k = some (i, a) ↔
      ∃ j ≤ k, i = place b j ∧ s.found get i = some a ∧
        ∀ j', j < j' → j' ≤ k → s.found get (place b j') = none := by
  induction k with
  | zero =>
    simp only [nearest, Option.map_eq_some_iff, Prod.mk.injEq]
    constructor
    · intro hall
      -- Only the global frame is left to ask.
      obtain ⟨a', ha, rfl, rfl⟩ := hall
      exact ⟨0, Nat.le_refl 0, rfl, ha, fun j' h1 h2 => by omega⟩
    · intro hall
      obtain ⟨j, hj, rfl, ha, -⟩ := hall
      obtain rfl : j = 0 := by omega
      exact ⟨a, ha, rfl, rfl⟩
  | succ k ih =>
    simp only [nearest]
    cases hf : s.found get (b + k) with
    | some a' =>
      simp only [Option.some.injEq, Prod.mk.injEq]
      constructor
      · intro hall
        obtain ⟨rfl, rfl⟩ := hall
        exact ⟨k + 1, Nat.le_refl _, rfl, hf, fun j' h1 h2 => by omega⟩
      · intro hall
        obtain ⟨j, hj, rfl, ha, hlater⟩ := hall
        -- The last frame answers, so the search cannot have passed it.
        obtain hlt | rfl := Nat.lt_or_eq_of_le hj
        · have := hlater (k + 1) hlt (Nat.le_refl _)
          rw [place_succ, hf] at this
          exact nomatch this
        · rw [place_succ, hf] at ha
          exact ⟨rfl, Option.some.inj ha⟩
    -- The last frame has no answer, so leaving it out makes no difference.
    | none =>
      rw [ih]
      constructor
      · intro hall
        obtain ⟨j, hj, rfl, ha, hlater⟩ := hall
        refine ⟨j, by omega, rfl, ha, fun j' h1 h2 => ?_⟩
        by_cases hk : j' = k + 1
        · rw [hk, place_succ, hf]
        · exact hlater j' h1 (by omega)
      · intro hall
        obtain ⟨j, hj, rfl, ha, hlater⟩ := hall
        have hne : j ≠ k + 1 := by
          rintro rfl
          rw [place_succ, hf] at ha
          exact nomatch ha
        exact ⟨j, by omega, rfl, ha, fun j' h1 h2 => hlater j' h1 (by omega)⟩

/-- A search answers from the nearest visible frame that has an answer. -/
theorem search_eq_some_iff {b k : Nat} {s : Scopes V F} (h : Located b k s)
    (get : Frame V F → Option α) (i : FrameId) (a : α) :
    s.search get = some (i, a) ↔
      ∃ j ≤ k, i = place b j ∧ s.found get i = some a ∧
        ∀ j', j < j' → j' ≤ k → s.found get (place b j') = none := by
  rw [search_eq_nearest h, nearest_eq_some_iff]

/-- What a search finds is there, whatever the number of steps. -/
private theorem found_of_searchFrom {s : Scopes V F} {get : Frame V F → Option α}
    {found : FrameId × α} :
    ∀ (n : Nat) (i : FrameId), searchFrom s.frames get n i = some found →
      s.found get found.1 = some found.2 := by
  intro n
  induction n with
  | zero =>
    intro i h
    cases h
  | succ n ih =>
    intro i h
    rw [searchFrom] at h
    cases hf : s.frames[i]? with
    | none => rw [hf] at h; cases h
    | some f =>
      simp only [hf] at h
      cases hg : get f with
      | some a =>
        rw [hg] at h
        cases h
        show s.frames[i]?.bind get = some a
        rw [hf, Option.bind_some, hg]
      | none =>
        -- The answer comes from a frame further out.
        simp only [hg] at h
        cases hp : f.parent with
        | none => rw [hp] at h; cases h
        | some parent =>
          simp only [hp] at h
          exact ih parent h

/-- What a search answers is found in the frame that it names. -/
theorem found_of_search {s : Scopes V F} {get : Frame V F → Option α} {found : FrameId × α}
    (h : s.search get = some found) : s.found get found.1 = some found.2 :=
  found_of_searchFrom _ _ h

/-- Functions are found in the global frame. -/
theorem function?_eq {b k : Nat} {s : Scopes V F} (h : Located b k s) (name : String)
    (arity : Nat) :
    s.function? name arity = s.found (·.functions.get? (name, arity)) 0 := by
  rw [function?, search_eq_nearest h]
  -- Local frames hold no functions, so the search falls through to the global one.
  have hlocal : ∀ j ≤ k, (s.nearest b (·.functions.get? (name, arity)) j).map (·.2) =
      s.found (·.functions.get? (name, arity)) 0 := by
    intro j hj
    induction j with
    | zero => simp only [nearest, Option.map_map]; exact Option.map_id'
    | succ j ih =>
      obtain ⟨f, hf, _, hempty⟩ := h.localFrame j (by omega)
      have hnone : s.found (·.functions.get? (name, arity)) (b + j) = none := by
        simp [found, hf, hempty]
      simp only [nearest, hnone]
      exact ih (by omega)
  exact hlocal k (Nat.le_refl k)

/-! ## Storing a variable -/

/-- Store a variable in the frame at position `i`. -/
def store (s : Scopes V F) (i : Nat) (name : String) (value : V) : Scopes V F :=
  s.modifyFrame i fun frame => { frame with vars := frame.vars.insert name value }

/-- Only the chosen frame changes, and only its variables. -/
theorem store_frame (s : Scopes V F) (i : Nat) (name : String) (value : V) (i' : Nat) :
    (s.store i name value).frames[i']? =
      if i' = i then s.frames[i']?.map fun f => { f with vars := f.vars.insert name value }
      else s.frames[i']? := by
  simp only [store, modifyFrame, Array.getElem?_modify, eq_comm]

/-- What is found after a variable has been stored in a frame. -/
theorem found_store {s : Scopes V F} {i : Nat} {f : Frame V F} (hf : s.frames[i]? = some f)
    (name : String) (value : V) (i' : Nat) (name' : String) :
    (s.store i name value).found (·.vars.get? name') i' =
      if i' = i ∧ name' = name then some value else s.found (·.vars.get? name') i' := by
  rw [found, store_frame, found]
  -- Another frame is not touched at all.
  by_cases hi : i' = i
  · subst hi
    rw [if_pos rfl, hf, Option.map_some, Option.bind_some, Option.bind_some, Table.get?_insert]
    simp only [true_and]
  · rw [if_neg hi, if_neg (fun h => hi h.1)]

/-- Whether a definition succeeds is a matter of the current frame. -/
theorem defineVariable_eq (s : Scopes V F) (name : String) (value : V) :
    s.defineVariable name value =
      if (s.found (·.vars.get? name) s.current).isSome then .error (.variableDefined name)
      else .ok (s.store s.current name value) := rfl

/-- A definition stores the variable in the current frame, which had none of that name. -/
theorem defineVariable_eq_ok_iff {s s' : Scopes V F} {name : String} {value : V} :
    s.defineVariable name value = .ok s' ↔
      s.found (·.vars.get? name) s.current = none ∧ s' = s.store s.current name value := by
  unfold defineVariable definesHere
  split
  · rename_i h
    obtain ⟨v, hv⟩ := Option.isSome_iff_exists.mp h
    simp [found, hv]
  · rename_i h
    have hnone := Option.not_isSome_iff_eq_none.mp h
    simp only [found, hnone, true_and, Except.ok.injEq]
    exact eq_comm

/-- An assignment stores the variable where a lookup finds it. -/
theorem assign?_eq (s : Scopes V F) (name : String) (value : V) :
    s.assign? name value =
      (s.search fun frame => frame.vars.get? name).map fun place =>
        s.store place.1 name value := rfl

/-- A function is defined in the current frame, which had none of that name and arity. -/
theorem defineFunction_eq_ok_iff {s s' : Scopes V F} {name : String} {arity : Nat}
    {function : F} :
    s.defineFunction name arity function = .ok s' ↔
      s.found (·.functions.get? (name, arity)) s.current = none ∧
        s' = s.redefineFunction name arity function := by
  unfold defineFunction definesHere
  split
  · rename_i h
    obtain ⟨v, hv⟩ := Option.isSome_iff_exists.mp h
    simp [found, hv]
  · rename_i h
    have hnone := Option.not_isSome_iff_eq_none.mp h
    simp only [found, hnone, true_and, Except.ok.injEq]
    exact eq_comm

/-- Only the current frame changes, and only its functions. -/
theorem redefineFunction_frame (s : Scopes V F) (name : String) (arity : Nat) (function : F)
    (i : Nat) :
    (s.redefineFunction name arity function).frames[i]? =
      if i = s.current then
        s.frames[i]?.map fun f => { f with functions := f.functions.insert (name, arity) function }
      else s.frames[i]? := by
  simp only [redefineFunction, modifyFrame, Array.getElem?_modify, eq_comm]

/-- Binding a function adds no frame. -/
@[simp] theorem redefineFunction_size (s : Scopes V F) (name : String) (arity : Nat)
    (function : F) :
    (s.redefineFunction name arity function).frames.size = s.frames.size := by
  simp [redefineFunction, modifyFrame]

/-- The functions that are found after one has been defined in the global frame. -/
theorem found_function_redefineFunction {s : Scopes V F} (h : Located 1 0 s) (name : String)
    (arity : Nat) (function : F) (key : FunctionKey) :
    (s.redefineFunction name arity function).found (·.functions.get? key) 0 =
      if key = (name, arity) then some function else s.found (·.functions.get? key) 0 := by
  obtain ⟨f, hf, _⟩ := h.globalFrame
  rw [found, found, redefineFunction_frame, h.current_eq, place_zero, if_pos rfl, hf,
    Option.map_some, Option.bind_some, Option.bind_some, Table.get?_insert]

/-- The same variables are found after a function has been defined. -/
theorem found_var_redefineFunction (s : Scopes V F) (name : String) (arity : Nat) (function : F)
    (var : String) (i : Nat) :
    (s.redefineFunction name arity function).found (·.vars.get? var) i =
      s.found (·.vars.get? var) i := by
  rw [found, found, redefineFunction_frame]
  split
  · rw [Option.bind_map]
    rfl
  · rfl

/-- At the global frame, a definition changes nothing else about what is visible. -/
theorem Located.redefineFunction {s : Scopes V F} (h : Located 1 0 s) (name : String)
    (arity : Nat) (function : F) : Located 1 0 (s.redefineFunction name arity function) where
  base_pos := h.base_pos
  size_eq := (redefineFunction_size s name arity function).trans h.size_eq
  current_eq := h.current_eq
  globalFrame := by
    obtain ⟨f, hf, hp⟩ := h.globalFrame
    refine ⟨{ f with functions := f.functions.insert (name, arity) function }, ?_, hp⟩
    rw [redefineFunction_frame, h.current_eq, place_zero, if_pos rfl, hf, Option.map_some]
  localFrame := fun j hj => by omega

/-! ## Stacks of one shape -/

/-- Two stacks that differ in nothing but their variables. -/
structure SameShape (s s' : Scopes V F) : Prop where
  current : s'.current = s.current
  skeletons : s'.frames.map Frame.skeleton = s.frames.map Frame.skeleton

namespace SameShape

variable {s s' s'' : Scopes V F}

/-- A stack has its own shape. -/
theorem refl (s : Scopes V F) : SameShape s s := ⟨rfl, rfl⟩

/-- Shapes can be compared over several steps. -/
theorem trans (h : SameShape s s') (h' : SameShape s' s'') : SameShape s s'' :=
  ⟨h'.current.trans h.current, h'.skeletons.trans h.skeletons⟩

/-- Stacks of one shape have equally many frames. -/
theorem size (h : SameShape s s') : s'.frames.size = s.frames.size := by
  simpa using congrArg Array.size h.skeletons

/-- Stacks of one shape have the same parents and functions in each frame. -/
theorem skeleton (h : SameShape s s') (i : Nat) :
    s'.frames[i]?.map Frame.skeleton = s.frames[i]?.map Frame.skeleton := by
  simpa using congrArg (·[i]?) h.skeletons

/-- A frame has a counterpart with the same links and functions. -/
theorem frame (h : SameShape s s') {i : Nat} {f : Frame V F} (hf : s.frames[i]? = some f) :
    ∃ f', s'.frames[i]? = some f' ∧ f'.parent = f.parent ∧ f'.previous = f.previous ∧
      f'.functions = f.functions := by
  have hs := h.skeleton i
  rw [hf, Option.map_some, Option.map_eq_some_iff] at hs
  obtain ⟨f', hf', heq⟩ := hs
  simp only [Frame.skeleton, Prod.mk.injEq] at heq
  exact ⟨f', hf', heq.1, heq.2.1, heq.2.2⟩

/-- The same functions are found. -/
theorem found_function (h : SameShape s s') (key : FunctionKey) (i : Nat) :
    s'.found (·.functions.get? key) i = s.found (·.functions.get? key) i := by
  -- The functions of a frame are part of its skeleton.
  have hs := congrArg (fun o => o.bind (·.2.2.get? key)) (h.skeleton i)
  simp only [Option.bind_map] at hs
  exact hs

/-- The global frame stays where it is. -/
theorem rooted (h : SameShape s s') (hs : s.Rooted) : s'.Rooted := by
  obtain ⟨f, hf, hp⟩ := hs
  obtain ⟨f', hf', hp', _⟩ := h.frame hf
  exact ⟨f', hf', hp'.trans hp⟩

/-- The same frames are visible. -/
theorem located (h : SameShape s s') {b k : Nat} (hs : Located b k s) : Located b k s' where
  base_pos := hs.base_pos
  size_eq := h.size.trans hs.size_eq
  current_eq := h.current.trans hs.current_eq
  globalFrame := h.rooted hs.globalFrame
  localFrame := fun j hj => by
    obtain ⟨f, hf, hp, he⟩ := hs.localFrame j hj
    obtain ⟨f', hf', hp', _, he'⟩ := h.frame hf
    exact ⟨f', hf', hp'.trans hp, he'.trans he⟩

end SameShape

/-- Storing a variable keeps the shape. -/
theorem sameShape_store (s : Scopes V F) (i : Nat) (name : String) (value : V) :
    SameShape s (s.store i name value) where
  current := rfl
  skeletons := by
    apply Array.ext_getElem?
    intro j
    rw [Array.getElem?_map, Array.getElem?_map, store_frame]
    split
    · rw [Option.map_map]; rfl
    · rfl

/-! ## Entering and leaving -/

/-- The frames of a stack are still there after another one is entered. -/
theorem pushChildOf_frame_lt (s : Scopes V F) (parent : FrameId) {i : Nat}
    (hi : i < s.frames.size) : (s.pushChildOf parent).frames[i]? = s.frames[i]? := by
  simp [pushChildOf, Array.getElem?_push, Nat.ne_of_lt hi]

/-- The frame that is entered is empty. -/
theorem pushChildOf_frame_size (s : Scopes V F) (parent : FrameId) :
    (s.pushChildOf parent).frames[s.frames.size]? =
      some ⟨some parent, some s.current, .empty, .empty⟩ := by
  simp [pushChildOf]

/-- A new frame is one more. -/
@[simp] theorem pushChildOf_size (s : Scopes V F) (parent : FrameId) :
    (s.pushChildOf parent).frames.size = s.frames.size + 1 := by
  simp [pushChildOf]

/-- The new frame is current. -/
@[simp] theorem pushChildOf_current (s : Scopes V F) (parent : FrameId) :
    (s.pushChildOf parent).current = s.frames.size := rfl

/-- What is found in the frames of a stack is found after another one is entered. -/
theorem found_pushChildOf_lt (s : Scopes V F) (parent : FrameId) (get : Frame V F → Option α)
    {i : Nat} (hi : i < s.frames.size) : (s.pushChildOf parent).found get i = s.found get i := by
  rw [found, pushChildOf_frame_lt s parent hi, found]

/-- No variable is found in the frame that is entered. -/
theorem found_pushChildOf_size (s : Scopes V F) (parent : FrameId) (name : String) :
    (s.pushChildOf parent).found (·.vars.get? name) s.frames.size = none := by
  rw [found, pushChildOf_frame_size]
  rfl

/-- A block sees one more frame. -/
theorem Located.push {b k : Nat} {s : Scopes V F} (h : Located b k s) :
    Located b (k + 1) s.push where
  base_pos := h.base_pos
  size_eq := by rw [Scopes.push, pushChildOf_size, h.size_eq]; omega
  current_eq := by rw [Scopes.push, pushChildOf_current, h.size_eq, place_succ]
  globalFrame := by
    obtain ⟨f, hf, hp⟩ := h.globalFrame
    exact ⟨f, (pushChildOf_frame_lt s _ h.rooted.size_pos).trans hf, hp⟩
  localFrame := fun j hj => by
    -- The last visible frame is the new one; the others are where they were.
    by_cases hk : j = k
    · subst hk
      have hnew := pushChildOf_frame_size s s.current
      rw [h.size_eq] at hnew
      exact ⟨_, hnew, congrArg some h.current_eq, rfl⟩
    · obtain ⟨f, hf, hp, he⟩ := h.localFrame j (by omega)
      refine ⟨f, ?_, hp, he⟩
      rw [← hf]
      exact pushChildOf_frame_lt s _ (by rw [h.size_eq]; omega)

/-- A call sees its own frame and the global one, whoever the caller is. -/
theorem Rooted.enterCall {s : Scopes V F} (h : s.Rooted) :
    Located s.frames.size 1 (s.pushChildOf global) where
  base_pos := h.size_pos
  size_eq := pushChildOf_size s global
  current_eq := rfl
  globalFrame := by
    obtain ⟨f, hf, hp⟩ := h
    exact ⟨f, (pushChildOf_frame_lt s _ (Rooted.size_pos ⟨f, hf, hp⟩)).trans hf, hp⟩
  localFrame := fun j hj => by
    -- The only local frame is the one of the call, and it hangs on the global one.
    obtain rfl : j = 0 := by omega
    exact ⟨_, pushChildOf_frame_size s global, rfl, rfl⟩

/-- Leaving takes away the last frame and goes back to the one before. -/
private theorem pop_of_sameShape_push {s s' : Scopes V F} {parent : FrameId}
    (h : SameShape (s.pushChildOf parent) s') (hs : 0 < s.frames.size) :
    s'.pop = ⟨s'.frames.pop, s.current⟩ := by
  have hsize : s'.frames.size = s.frames.size + 1 := by rw [h.size, pushChildOf_size]
  -- The last frame still has the link that it got when it was entered.
  obtain ⟨f, hf, _, hprev, _⟩ := h.frame (pushChildOf_frame_size s parent)
  have hback : s'.frames.back? = some f := by
    rw [Array.back?_eq_getElem?, hsize, Nat.add_sub_cancel, hf]
  rw [pop, if_neg (by omega), hback]
  simp only [hprev, Option.getD_some]

/-- What is left after leaving a frame is as it was in it. -/
theorem pop_frame_of_sameShape_push {s s' : Scopes V F} {parent : FrameId}
    (h : SameShape (s.pushChildOf parent) s') (hs : 0 < s.frames.size) {i : Nat}
    (hi : i < s.frames.size) : s'.pop.frames[i]? = s'.frames[i]? := by
  have hsize : s'.frames.size = s.frames.size + 1 := by rw [h.size, pushChildOf_size]
  rw [pop_of_sameShape_push h hs, Array.getElem?_pop, if_pos (by omega)]

/-- What is found after leaving a frame was found in it. -/
theorem found_pop_of_sameShape_push {s s' : Scopes V F} {parent : FrameId}
    (h : SameShape (s.pushChildOf parent) s') (hs : 0 < s.frames.size)
    (get : Frame V F → Option α) {i : Nat} (hi : i < s.frames.size) :
    s'.pop.found get i = s'.found get i := by
  rw [found, pop_frame_of_sameShape_push h hs hi, found]

/-- Leaving a frame undoes entering it, up to variables. -/
theorem SameShape.pop {s s' : Scopes V F} {parent : FrameId}
    (h : SameShape (s.pushChildOf parent) s') (hs : 0 < s.frames.size) :
    SameShape s s'.pop where
  current := by rw [pop_of_sameShape_push h hs]
  skeletons := by
    have hmap := congrArg Array.pop h.skeletons
    rw [pop_of_sameShape_push h hs]
    simpa [pushChildOf] using hmap

/-! ## Growing the current frame -/

/-- Nothing but variables of the current frame has changed. -/
structure Grows (s s' : Scopes V F) : Prop where
  shape : SameShape s s'
  others : ∀ i, i ≠ s.current → s'.frames[i]? = s.frames[i]?

namespace Grows

variable {s s' s'' : Scopes V F}

/-- A stack has grown out of itself. -/
theorem refl (s : Scopes V F) : Grows s s := ⟨.refl s, fun _ _ => rfl⟩

/-- Growth adds up. -/
theorem trans (h : Grows s s') (h' : Grows s' s'') : Grows s s'' where
  shape := h.shape.trans h'.shape
  others := fun i hi => (h'.others i (by rwa [h.shape.current])).trans (h.others i hi)

/-- A definition only adds to the current frame. -/
theorem of_defineVariable {name : String} {value : V}
    (h : s.defineVariable name value = .ok s') : Grows s s' := by
  obtain ⟨_, rfl⟩ := defineVariable_eq_ok_iff.mp h
  refine ⟨sameShape_store _ _ _ _, fun i hi => ?_⟩
  rw [store_frame, if_neg hi]

/-- What a block defines is gone when it is left. -/
theorem pop (h : Grows s.push s') (hs : 0 < s.frames.size) : s'.pop = s := by
  have hpop := pop_of_sameShape_push h.shape hs
  have hframes : s'.frames.pop = s.frames := by
    apply Array.ext_getElem?
    intro i
    -- Frames below the block are untouched, and the one of the block is gone.
    by_cases hi : i < s.frames.size
    · have hkept := pop_frame_of_sameShape_push h.shape hs hi
      rw [hpop] at hkept
      have hne : i ≠ s.push.current := by
        rw [push, pushChildOf_current]
        exact Nat.ne_of_lt hi
      rw [hkept, h.others i hne]
      exact pushChildOf_frame_lt s _ hi
    · have hsize : s'.frames.size = s.frames.size + 1 := by
        rw [h.shape.size, push, pushChildOf_size]
      rw [Array.getElem?_eq_none (by rw [Array.size_pop]; omega),
        Array.getElem?_eq_none (by omega)]
  rw [hpop, hframes]

end Grows

end Scopes

end LetLang
