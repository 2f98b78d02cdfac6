import LetLang.Proofs.LexicalScope
import LetLang.Proofs.Numbering
import LetLang.Proofs.Yield

/-!
# Running with other functions

Two machines that differ only in the functions of their global frames run alike, as long as no
function is looked up about which they differ.  What a computation looks up is read off its
tree: `Expr.CallsAgree` says that both tables have the same function for every call in an
expression, and `Table.Closed` that this holds in the bodies of all methods of a table.

* `Scopes.graft`       the same stack with other functions in the global frame
* `Machine.Grafted`    two machines that differ in nothing else
* `Exec.Unaffected`    a computation that ends alike in two such machines
* `unaffected_invokeWithin`   calls of the methods of a closed table are unaffected
-/

namespace LetLang

open Scopes Exec

/-! ## Stacks with other functions -/

/-- The stack with the functions of its global frame replaced. -/
def Scopes.graft {V F : Type} (table : Table FunctionKey F) (s : Scopes V F) : Scopes V F :=
  s.modifyFrame 0 fun frame => { frame with functions := table }

namespace Scopes

variable {V F α : Type} {table : Table FunctionKey F} {s : Scopes V F}

/-- Grafting replaces the functions of the global frame and nothing else. -/
theorem graft_frame (i : Nat) :
    (s.graft table).frames[i]? =
      if i = 0 then s.frames[i]?.map fun f => { f with functions := table }
      else s.frames[i]? := by
  simp only [graft, modifyFrame, Array.getElem?_modify, eq_comm]

@[simp] theorem graft_size : (s.graft table).frames.size = s.frames.size := by
  simp [graft, modifyFrame]

@[simp] theorem graft_current : (s.graft table).current = s.current := rfl

/-- The last graft counts. -/
theorem graft_graft (table' : Table FunctionKey F) :
    (s.graft table).graft table' = s.graft table' := by
  simp only [graft, modifyFrame, Scopes.mk.injEq, and_true]
  apply Array.ext_getElem?
  intro i
  simp only [Array.getElem?_modify]
  by_cases hi : 0 = i <;> simp [hi, Function.comp_def]

/-- A new frame goes on top of a grafted stack as well. -/
private theorem graft_pushChildOf (hs : 0 < s.frames.size) (parent : FrameId) :
    (s.graft table).pushChildOf parent = (s.pushChildOf parent).graft table := by
  simp only [pushChildOf, graft, modifyFrame, Array.size_modify, Scopes.mk.injEq, and_true]
  apply Array.ext_getElem?
  intro i
  simp only [Array.getElem?_push, Array.getElem?_modify, Array.size_modify]
  by_cases hi : 0 = i
  · have hne : i ≠ s.frames.size := by omega
    simp [hi, hne]
  · simp [hi]

/-- Variables are stored as before. -/
private theorem graft_store (i : Nat) (name : String) (value : V) :
    (s.graft table).store i name value = (s.store i name value).graft table := by
  simp only [store, graft, modifyFrame, Scopes.mk.injEq, and_true]
  apply Array.ext_getElem?
  intro j
  simp only [Array.getElem?_modify]
  by_cases hi : i = j <;> by_cases hj : 0 = j <;> simp [hi, hj, Option.map_map, Function.comp_def]

/-- Frames are taken away as before. -/
private theorem graft_pop : (s.graft table).pop = s.pop.graft table := by
  unfold pop
  rw [graft_size]
  by_cases hsize : s.frames.size ≤ 1
  · rw [if_pos hsize, if_pos hsize]
  · rw [if_neg hsize, if_neg hsize]
    -- The frame that is left is not the global one.
    have hback : (s.graft table).frames.back? = s.frames.back? := by
      rw [Array.back?_eq_getElem?, Array.back?_eq_getElem?, graft_size, graft_frame,
        if_neg (by omega)]
    rw [hback]
    cases hf : s.frames.back? with
    | none => rfl
    | some frame =>
      simp only [graft, modifyFrame, Scopes.mk.injEq, and_true]
      apply Array.ext_getElem?
      intro i
      simp only [Array.getElem?_pop, Array.getElem?_modify, Array.size_modify]
      by_cases hi : 0 = i <;> by_cases hlt : i < s.frames.size - 1 <;> simp [hi, hlt]

/-- A search that does not look at the functions of the global frame, or finds the same there. -/
private theorem search_graft {get : Frame V F → Option α}
    (h : ∀ f, s.frames[0]? = some f → get { f with functions := table } = get f) :
    (s.graft table).search get = s.search get := by
  have hfrom : ∀ n i, searchFrom (s.graft table).frames get n i = searchFrom s.frames get n i := by
    intro n
    induction n with
    | zero => exact fun _ => rfl
    | succ n ih =>
      intro i
      simp only [searchFrom, graft_frame]
      -- Only the global frame has changed, and `get` gives the same there.
      by_cases hi : i = 0
      · subst hi
        rw [if_pos rfl]
        cases hf : s.frames[0]? with
        | none => rfl
        | some f =>
          simp only [Option.map_some, h f hf]
          cases get f with
          | some a => rfl
          | none => cases f.parent <;> simp [ih]
      · rw [if_neg hi]
        cases s.frames[i]? with
        | none => rfl
        | some f =>
          simp only
          cases get f with
          | some a => rfl
          | none => cases f.parent <;> simp [ih]
  rw [search, search, graft_size, graft_current, hfrom]

/-- Variables are found where they were. -/
private theorem search_var_graft (name : String) :
    (s.graft table).search (·.vars.get? name) = s.search (·.vars.get? name) :=
  search_graft fun _ _ => rfl

/-- Every frame has the variables that it had. -/
private theorem found_var_graft (name : String) (i : Nat) :
    (s.graft table).found (·.vars.get? name) i = s.found (·.vars.get? name) i := by
  rw [found, found, graft_frame]
  by_cases hi : i = 0
  · rw [if_pos hi, Option.bind_map]
    rfl
  · rw [if_neg hi]

/-- A stack that is left has the global frame of before, and no functions anywhere else. -/
theorem FunctionsGlobal.pop (h : s.FunctionsGlobal) : s.pop.FunctionsGlobal := by
  intro i f hi hf
  unfold Scopes.pop at hf
  split at hf
  · exact h i f hi hf
  -- Frames are only taken away.
  · cases hback : s.frames.back? with
    | none =>
      rw [hback] at hf
      exact h i f hi hf
    | some frame =>
      rw [hback] at hf
      simp only [Array.getElem?_pop] at hf
      split at hf
      · exact h i f hi hf
      · exact nomatch hf

/-- Taking a frame away leaves the global one. -/
private theorem pop_global : s.pop.frames[0]? = s.frames[0]? := by
  unfold pop
  split
  · rfl
  · rename_i hsize
    cases s.frames.back? with
    | none => rfl
    | some frame => simp only [Array.getElem?_pop, if_pos (show 0 < s.frames.size - 1 by omega)]

/-- A function that is found is one of the global frame, if no other frame has any. -/
theorem FunctionsGlobal.function? (h : s.FunctionsGlobal) {name : String} {arity : Nat} {f : F}
    (hf : s.function? name arity = some f) :
    s.found (·.functions.get? (name, arity)) 0 = some f := by
  have hfrom : ∀ n i, ∀ found, searchFrom s.frames (·.functions.get? (name, arity)) n i = some found →
      s.found (·.functions.get? (name, arity)) 0 = some found.2 := by
    intro n
    induction n with
    | zero =>
      intro _ _ hs
      cases hs
    | succ n ih =>
      intro i found hs
      simp only [searchFrom] at hs
      cases hframe : s.frames[i]? with
      | none => rw [hframe] at hs; cases hs
      | some frame =>
        rw [hframe] at hs
        simp only at hs
        cases hget : frame.functions.get? (name, arity) with
        | some g =>
          rw [hget] at hs
          cases hs
          -- A frame that is not global has no functions, so this is the global one.
          by_cases hi : i = 0
          · subst hi
            rw [Scopes.found, hframe, Option.bind_some, hget]
          · rw [h i frame (Nat.pos_of_ne_zero hi) hframe] at hget
            cases hget
        | none =>
          rw [hget] at hs
          cases hparent : frame.parent with
          | none => rw [hparent] at hs; cases hs
          | some parent =>
            rw [hparent] at hs
            exact ih parent found hs
  obtain ⟨found, hsearch, rfl⟩ := Option.map_eq_some_iff.mp hf
  exact hfrom _ _ found hsearch

end Scopes

/-! ## Machines with other functions -/

/-- The first machine has the functions `table` and no others, and the second one is the same but
    for having the functions `table'`. -/
structure Machine.Grafted (table table' : Table FunctionKey Callable) (m m' : Machine) : Prop where
  functionsGlobal : m.scopes.FunctionsGlobal
  table_eq : m.scopes.frames[0]?.map (·.functions) = some table
  scopes_eq : m'.scopes = m.scopes.graft table'
  world_eq : m'.world = m.world
  calls_eq : m'.calls = m.calls

namespace Machine.Grafted

variable {table table' : Table FunctionKey Callable} {m m' : Machine}

/-- There is a global frame. -/
theorem size_pos (h : Grafted table table' m m') : 0 < m.scopes.frames.size := by
  obtain ⟨f, hf, _⟩ := Option.map_eq_some_iff.mp h.table_eq
  exact (Array.getElem?_eq_some_iff.mp hf).1

/-- Both machines store a variable in the same frame. -/
theorem store (h : Grafted table table' m m') (i : Nat) (name : String) (value : Value) :
    Grafted table table' { m with scopes := m.scopes.store i name value }
      { m' with scopes := m'.scopes.store i name value } where
  -- Variables are stored beside the functions.
  functionsGlobal := (sameShape_store _ _ _ _).functionsGlobal h.functionsGlobal
  table_eq := by
    rw [← h.table_eq]
    have hskeleton := congrArg (·.map (·.2.2))
      ((sameShape_store m.scopes i name value).skeleton 0)
    simp only [Option.map_map] at hskeleton
    exact hskeleton
  scopes_eq := by rw [h.scopes_eq, graft_store]
  world_eq := h.world_eq
  calls_eq := h.calls_eq

/-- Entering a scope keeps two machines grafted. -/
theorem pushChildOf (h : Grafted table table' m m') (parent : FrameId) :
    Grafted table table' { m with scopes := m.scopes.pushChildOf parent }
      { m' with scopes := m'.scopes.pushChildOf parent } where
  functionsGlobal := h.functionsGlobal.pushChildOf parent
  table_eq := by
    show (m.scopes.pushChildOf parent).frames[0]?.map _ = some table
    rw [pushChildOf_frame_lt _ _ h.size_pos]
    exact h.table_eq
  scopes_eq := by rw [h.scopes_eq, graft_pushChildOf h.size_pos]
  world_eq := h.world_eq
  calls_eq := h.calls_eq

/-- Leaving a scope keeps two machines grafted. -/
theorem pop (h : Grafted table table' m m') :
    Grafted table table' { m with scopes := m.scopes.pop } { m' with scopes := m'.scopes.pop } where
  functionsGlobal := h.functionsGlobal.pop
  table_eq := by
    show m.scopes.pop.frames[0]?.map _ = some table
    rw [pop_global]
    exact h.table_eq
  scopes_eq := by rw [h.scopes_eq, graft_pop]
  world_eq := h.world_eq
  calls_eq := h.calls_eq

/-- Grafted machines find the same variables. -/
theorem search_var (h : Grafted table table' m m') (name : String) :
    m'.scopes.search (·.vars.get? name) = m.scopes.search (·.vars.get? name) := by
  rw [h.scopes_eq, search_var_graft]

/-- A function about which the tables agree is found in both machines or in neither. -/
theorem function?_eq (h : Grafted table table' m m') {name : String} {arity : Nat}
    (hkey : table.get? (name, arity) = table'.get? (name, arity)) :
    m'.scopes.function? name arity = m.scopes.function? name arity := by
  rw [h.scopes_eq, function?, function?, search_graft]
  intro f hf
  have htable := h.table_eq
  rw [hf, Option.map_some, Option.some.injEq] at htable
  rw [htable, hkey]

/-- What is found is a function of the table. -/
private theorem get?_of_function? (h : Grafted table table' m m') {name : String} {arity : Nat}
    {callable : Callable} (hf : m.scopes.function? name arity = some callable) :
    table.get? (name, arity) = some callable := by
  have hfound := h.functionsGlobal.function? hf
  obtain ⟨f, hframe, rfl⟩ := Option.map_eq_some_iff.mp h.table_eq
  rwa [found, hframe, Option.bind_some] at hfound

end Machine.Grafted

/-! ## Computations that are unaffected -/

/-- Both tables have the same function, or none, for every call in the expression. -/
def Expr.CallsAgree (table table' : Table FunctionKey Callable) (e : Expr) : Prop :=
  ∀ id name items, .call id name items ∈ e.nodes →
    table.get? (name, items.length) = table'.get? (name, items.length)

/-- The methods of the table make only calls about which the two tables agree. -/
def Table.Closed (table table' : Table FunctionKey Callable) : Prop :=
  ∀ key m, table.get? key = some (.method m) → ∀ e ∈ Statement.listExprs m.body,
    e.CallsAgree table table'

/-- One computation after another, of which the second has to do only with the results of the
    first. -/
theorem SameEnd.bind_of_ok {ε σ α β : Type} {R : σ → σ → Prop} {s t : σ} {x : EStateM ε σ α}
    {f : α → EStateM ε σ β} (h : SameEnd R (x s) (x t))
    (hf : ∀ a s' t', x s = .ok a s' → R s' t' → SameEnd R (f a s') (f a t')) :
    SameEnd R ((x >>= f) s) ((x >>= f) t) := by
  simp only [Bind.bind, EStateM.bind]
  cases hs : x s <;> cases ht : x t <;> rw [hs, ht] at h
  · obtain ⟨rfl, hR⟩ := h
    exact hf _ _ _ hs hR
  · exact h.elim
  · exact h.elim
  · exact h

namespace Exec

variable {α β : Type} {table table' : Table FunctionKey Callable}

/-- The computation ends alike in two machines with these functions. -/
def Unaffected (table table' : Table FunctionKey Callable) (x : Exec α) : Prop :=
  ∀ m m', Machine.Grafted table table' m m' → SameEnd (Machine.Grafted table table') (x m) (x m')

theorem unaffected_pure (a : α) : Unaffected table table' (pure a) := fun _ _ h => ⟨rfl, h⟩

/-- An error does not depend on the functions. -/
theorem unaffected_fail (e : RuntimeError) : Unaffected table table' (fail e : Exec α) :=
  fun _ _ h => ⟨rfl, h⟩

/-- A sequence is unaffected if its parts are. -/
theorem Unaffected.bind {x : Exec α} {f : α → Exec β} (hx : Unaffected table table' x)
    (hf : ∀ a, Unaffected table table' (f a)) : Unaffected table table' (x >>= f) :=
  fun m m' h => (hx m m' h).bind fun a s s' h' => hf a s s' h'

theorem Unaffected.ite {p : Prop} [Decidable p] {x y : Exec α} (hx : Unaffected table table' x)
    (hy : Unaffected table table' y) : Unaffected table table' (if p then x else y) := by
  split
  · exact hx
  · exact hy

/-- A check does not look at the machine. -/
private theorem unaffected_ofExcept (x : Except RuntimeError α) :
    Unaffected table table' (ofExcept x) := by
  cases x with
  | ok a => exact unaffected_pure a
  | error e => exact unaffected_fail e

/-- A native sees the world only, which is shared. -/
private theorem unaffected_ofNative (x : NativeM α) : Unaffected table table' (ofNative x) := by
  intro m m' h
  unfold ofNative
  rw [h.world_eq]
  cases x m.world <;> exact ⟨rfl, { h with world_eq := rfl }⟩

/-- Variables are found in the same frames. -/
private theorem unaffected_readVariable (name : String) :
    Unaffected table table' (readVariable name) := by
  intro m m' h
  unfold readVariable lookup?
  rw [h.search_var]
  cases m.scopes.search (·.vars.get? name) <;> exact ⟨rfl, h⟩

/-- Variables are written in the frame where they are found. -/
private theorem unaffected_writeVariable (name : String) (value : Value) :
    Unaffected table table' (writeVariable name value) := by
  intro m m' h
  unfold writeVariable
  rw [assign?_eq, assign?_eq, h.search_var]
  cases m.scopes.search (·.vars.get? name) with
  | none => exact ⟨rfl, h⟩
  | some place => exact ⟨rfl, h.store place.1 name value⟩

/-- The current frame is the same too. -/
private theorem unaffected_defineVariable (name : String) (value : Value) :
    Unaffected table table' (defineVariable name value) := by
  intro m m' h
  have hcurrent : m'.scopes.current = m.scopes.current := by rw [h.scopes_eq, graft_current]
  have hfound : m'.scopes.found (·.vars.get? name) m.scopes.current =
      m.scopes.found (·.vars.get? name) m.scopes.current := by
    rw [h.scopes_eq, found_var_graft]
  unfold defineVariable changeScopes
  simp only [defineVariable_eq, hcurrent, hfound]
  cases m.scopes.found (·.vars.get? name) m.scopes.current with
  | none => exact ⟨rfl, h.store m.scopes.current name value⟩
  | some v => exact ⟨rfl, h⟩

/-- Entering and leaving a scope does not touch the functions. -/
theorem Unaffected.inScope {body : Exec α} (h : Unaffected table table' body)
    (parent : FrameId) : Unaffected table table' (inScope parent body) := by
  intro m m' hm
  apply sameEnd_inScope
  exact (h _ _ (hm.pushChildOf parent)).imp fun _ _ hend => hend.pop

theorem Unaffected.inBlock {body : Exec α} (h : Unaffected table table' body) :
    Unaffected table table' (inBlock body) := by
  intro m m' hm
  have hcurrent : m'.scopes.current = m.scopes.current := by rw [hm.scopes_eq, graft_current]
  unfold Exec.inBlock
  rw [hcurrent]
  exact h.inScope m.scopes.current m m' hm

/-- Counting a call does not touch the functions. -/
theorem Unaffected.counted {body : Exec α} (h : Unaffected table table' body) :
    Unaffected table table' (counted body) := by
  intro m m' hm
  apply sameEnd_counted
  have hentered : Machine.Grafted table table' { m with calls := m.calls + 1 }
      { m' with calls := m'.calls + 1 } := { hm with calls_eq := congrArg (· + 1) hm.calls_eq }
  exact (h _ _ hentered).imp fun _ _ hend => { hend with calls_eq := congrArg (· - 1) hend.calls_eq }

/-- The rounds of a loop over a range, by induction on those left. -/
theorem Unaffected.forRounds {body : Int → Exec Completion}
    (h : ∀ k, Unaffected table table' (body k)) (n : Nat) (k : Int) :
    Unaffected table table' (forRounds body k n) := by
  induction n generalizing k with
  | zero => exact unaffected_pure _
  | succ n ih =>
    refine (h k).bind fun completion => ?_
    cases completion with
    | normal => exact ih (k + 1)
    | returned v => exact unaffected_pure _

/-- The rounds of a loop with a condition, by induction on the bound. -/
theorem Unaffected.whileRounds {test : Exec Bool} {body : Exec Completion}
    (ht : Unaffected table table' test) (hb : Unaffected table table' body) (n : Nat) :
    Unaffected table table' (whileRounds test body n) := by
  induction n with
  | zero => exact fun _ _ h => ⟨rfl, h⟩
  | succ n ih =>
    refine ht.bind fun holds => ?_
    refine Unaffected.ite (hb.bind fun completion => ?_) (unaffected_pure _)
    cases completion with
    | normal => exact ih
    | returned v => exact unaffected_pure _

/-! ## The evaluator -/

/-- Every method of the table is called alike in both machines. -/
def InvokesAlike (table table' : Table FunctionKey Callable) (invoke : Invoke) : Prop :=
  ∀ key m, table.get? key = some (.method m) → ∀ values, Unaffected table table' (invoke m values)

section Evaluator

variable (env : Env) {invoke : Invoke}

/-- A call of a name that means the same in both tables invokes the same function. -/
theorem unaffected_call (hinv : InvokesAlike table table' invoke) {name : String}
    {values : List Value}
    (hkey : table.get? (name, values.length) = table'.get? (name, values.length)) :
    Unaffected table table' (call invoke name values) := by
  intro m m' h
  have hfind : SameEnd (Machine.Grafted table table') (findFunction name values.length m)
      (findFunction name values.length m') := by
    unfold findFunction
    rw [h.function?_eq hkey]
    cases m.scopes.function? name values.length <;> exact ⟨rfl, h⟩
  refine hfind.bind_of_ok ?_
  intro callable s s' hrun hs
  cases callable with
  | native native => exact unaffected_ofNative _ s s' hs
  | method method =>
    -- What is called is a method of the table.
    have hget : table.get? (name, values.length) = some (.method method) := by
      unfold findFunction at hrun
      cases hf : m.scopes.function? name values.length with
      | none => rw [hf] at hrun; exact nomatch hrun
      | some found =>
        rw [hf] at hrun
        cases hrun
        exact h.get?_of_function? hf
    exact hinv _ method hget values s s' hs

/-- There is one value for each expression. -/
private theorem length_evaluateAll : ∀ (items : List Expr) (m : Machine),
    Ends (evaluateAll env invoke items) m (fun values _ => values.length = items.length)
      fun _ _ => True
  | [], m => by
    rw [evaluateAll]
    exact rfl
  | e :: rest, m => by
    rw [evaluateAll]
    -- Of the single value nothing matters but that there is one.
    have he : Ends (evaluate env invoke e) m (fun _ _ => True) fun _ _ => True := by
      unfold Ends
      cases evaluate env invoke e m <;> trivial
    refine he.bind fun v m₁ _ _ => ?_
    refine (length_evaluateAll rest m₁).bind fun values m₂ _ hlength => ?_
    exact congrArg Nat.succ hlength

mutual

/-- An expression is unaffected if its calls are. -/
private theorem unaffected_evaluate (hinv : InvokesAlike table table' invoke) : ∀ e : Expr,
    e.CallsAgree table table' → Unaffected table table' (evaluate env invoke e)
  | .literal _ value, _ => by
    rw [evaluate]
    exact unaffected_pure _
  | .group _ inner, he => by
    rw [evaluate]
    exact unaffected_evaluate hinv inner fun id name items hcall =>
      he id name items (by simp [Expr.nodes, hcall])
  | .binary _ operator left right, he => by
    have hleft := unaffected_evaluate hinv left fun id name items hcall =>
      he id name items (by simp [Expr.nodes, hcall])
    have hright := unaffected_evaluate hinv right fun id name items hcall =>
      he id name items (by simp [Expr.nodes, hcall])
    rw [evaluate]
    refine hleft.bind fun a => ?_
    -- `AND` and `OR` may leave out the operand on the right.
    cases operator with
    | and =>
      refine (unaffected_ofExcept _).bind fun holds => ?_
      refine Unaffected.ite (hright.bind fun b => ?_) (unaffected_pure _)
      exact (unaffected_ofExcept _).bind fun _ => unaffected_pure _
    | or =>
      refine (unaffected_ofExcept _).bind fun holds => ?_
      refine Unaffected.ite (unaffected_pure _) (hright.bind fun b => ?_)
      exact (unaffected_ofExcept _).bind fun _ => unaffected_pure _
    | _ => exact hright.bind fun b => unaffected_ofExcept _
  | .var _ name, _ => by
    rw [evaluate]
    exact unaffected_readVariable name
  | .field _ receiver name, he => by
    rw [evaluate]
    have hreceiver := unaffected_evaluate hinv receiver fun id name items hcall =>
      he id name items (by simp [Expr.nodes, hcall])
    exact hreceiver.bind fun v => unaffected_ofNative _
  | .call id name items, he => by
    rw [evaluate]
    have hitems := unaffected_evaluateAll hinv items fun id name items' hcall =>
      he id name items' (by simp [Expr.nodes, hcall])
    have hkey := he id name items (by simp [Expr.nodes])
    intro m m' h
    refine (hitems m m' h).bind_of_ok ?_
    intro values s s' hrun hs
    -- The arity of the call is the number of values, which is that of the arguments.
    have hlength := (length_evaluateAll env items m).of_ok hrun
    rw [← hlength] at hkey
    exact unaffected_call hinv hkey s s' hs
  | .invoke _ receiver name items, he => by
    rw [evaluate]
    have hreceiver := unaffected_evaluate hinv receiver fun id name items' hcall =>
      he id name items' (by simp [Expr.nodes, hcall])
    have hitems := unaffected_evaluateAll hinv items fun id name items' hcall =>
      he id name items' (by simp [Expr.nodes, hcall])
    refine hreceiver.bind fun v => ?_
    refine (unaffected_ofExcept _).bind fun native => ?_
    exact hitems.bind fun values => unaffected_ofNative _

/-- Arguments are evaluated one after the other. -/
private theorem unaffected_evaluateAll (hinv : InvokesAlike table table' invoke) :
    ∀ items : List Expr,
    (∀ id name items', .call id name items' ∈ Expr.nodesAll items →
      table.get? (name, items'.length) = table'.get? (name, items'.length)) →
    Unaffected table table' (evaluateAll env invoke items)
  | [], _ => by
    rw [evaluateAll]
    exact unaffected_pure _
  | e :: rest, hitems => by
    rw [evaluateAll]
    have he := unaffected_evaluate hinv e fun id name items hcall =>
      hitems id name items (by simp [Expr.nodesAll, hcall])
    have hrest := unaffected_evaluateAll hinv rest fun id name items hcall =>
      hitems id name items (by simp [Expr.nodesAll, hcall])
    exact he.bind fun v => hrest.bind fun values => unaffected_pure _

end

/-- A declaration evaluates its initializer. -/
private theorem unaffected_declare (hinv : InvokesAlike table table' invoke) (d : Declaration)
    (he : ∀ e ∈ d.initializer, e.CallsAgree table table') :
    Unaffected table table' (declare env invoke d) := by
  unfold declare
  cases hvalue : d.initializer with
  | none => exact unaffected_defineVariable _ _
  | some e =>
    exact (unaffected_evaluate env hinv e (he e hvalue)).bind fun v =>
      unaffected_defineVariable _ _

/-- An assignment evaluates its receiver, if it has one, and its value. -/
private theorem unaffected_assign (hinv : InvokesAlike table table' invoke) {target value : Expr}
    (htarget : target.CallsAgree table table') (hvalue : value.CallsAgree table table') :
    Unaffected table table' (assign env invoke target value) := by
  have heval := unaffected_evaluate env hinv value hvalue
  unfold assign
  cases target with
  | var _ name => exact heval.bind fun v => unaffected_writeVariable _ _
  | field _ receiver name =>
    have hreceiver := unaffected_evaluate env hinv receiver fun id name items hcall =>
      htarget id name items (by simp [Expr.nodes, hcall])
    exact hreceiver.bind fun object => heval.bind fun v => unaffected_ofNative _
  | _ => exact unaffected_fail _

mutual

/-- A statement is unaffected if its calls are. -/
private theorem unaffected_statement (hinv : InvokesAlike table table' invoke) : ∀ s : Statement,
    (∀ e ∈ s.exprs, e.CallsAgree table table') → Unaffected table table' (statement env invoke s)
  | .expression value, he => by
    rw [statement]
    have hvalue := unaffected_evaluate env hinv value (he value (by simp [Statement.exprs]))
    exact (hvalue.bind fun _ => unaffected_pure _).bind fun _ => unaffected_pure _
  | .declare d, he => by
    rw [statement]
    simp only [Statement.exprs, Option.mem_toList] at he
    exact (unaffected_declare env hinv d he).bind fun _ => unaffected_pure _
  | .assign target value, he => by
    rw [statement]
    simp only [Statement.exprs, List.forall_mem_cons] at he
    exact (unaffected_assign env hinv he.1 he.2.1).bind fun _ => unaffected_pure _
  | .ifElse condition thenBody elseBody, he => by
    rw [statement]
    simp only [Statement.exprs, List.forall_mem_cons, List.forall_mem_append] at he
    refine (unaffected_evaluate env hinv condition he.1).bind fun v => ?_
    refine (unaffected_ofExcept _).bind fun holds => ?_
    -- Both machines take the same branch, since the condition is the same value.
    exact Unaffected.ite (unaffected_statements hinv thenBody he.2.1).inBlock
      (unaffected_statements hinv elseBody he.2.2).inBlock
  | .forIn name iterable body, he => by
    rw [statement]
    simp only [Statement.exprs, List.forall_mem_cons] at he
    have hbody := unaffected_statements hinv body he.2
    refine (unaffected_evaluate env hinv iterable he.1).bind fun v => ?_
    cases v.elements? with
    | none => exact unaffected_fail _
    | some range =>
      -- Every round has its own scope with the variable of the loop in it.
      refine Unaffected.forRounds (fun k => Unaffected.inBlock ?_) _ _
      exact (unaffected_defineVariable _ _).bind fun _ => hbody
  | .whileDo condition body, he => by
    rw [statement]
    simp only [Statement.exprs, List.forall_mem_cons] at he
    refine Unaffected.whileRounds ?_ (unaffected_statements hinv body he.2).inBlock _
    exact (unaffected_evaluate env hinv condition he.1).bind fun v => unaffected_ofExcept _
  | .returns value, he => by
    rw [statement]
    have hvalue := unaffected_evaluate env hinv value (he value (by simp [Statement.exprs]))
    exact hvalue.bind fun v => unaffected_pure _

/-- Statements in a row call what their expressions call. -/
private theorem unaffected_statements (hinv : InvokesAlike table table' invoke) :
    ∀ body : List Statement, (∀ e ∈ Statement.listExprs body, e.CallsAgree table table') →
    Unaffected table table' (statements env invoke body)
  | [], _ => by
    rw [statements]
    exact unaffected_pure _
  | s :: rest, he => by
    rw [statements]
    simp only [Statement.listExprs, List.forall_mem_append] at he
    refine (unaffected_statement hinv s he.1).bind fun completion => ?_
    -- A return skips the rest.
    cases completion with
    | normal => exact unaffected_statements hinv rest he.2
    | returned v => exact unaffected_pure _

end

/-- Parameters are variables. -/
private theorem unaffected_defineParameters (parameters : List Parameter) (values : List Value) :
    Unaffected table table' (defineParameters parameters values) := by
  fun_induction defineParameters parameters values with
  | case1 p ps v vs ih => exact (unaffected_defineVariable _ _).bind fun _ => ih
  | case2 => exact unaffected_pure _

/-- Calls of the methods of a closed table are unaffected, however deep they go. -/
theorem unaffected_invokeWithin (hclosed : table.Closed table') (n : Nat) :
    InvokesAlike table table' (invokeWithin env n) := by
  induction n with
  | zero => exact fun _ _ _ _ => unaffected_fail _
  | succ n ih =>
    intro key method hget values
    -- The table is closed, so the names in the body mean the same in both tables.
    have hbody : Unaffected table table' (methodBody env (invokeWithin env n) method values) :=
      (unaffected_defineParameters _ _).bind fun _ =>
        unaffected_statements env ih method.body (hclosed key method hget)
    intro m m' hm
    show SameEnd _ ((if maxCalls ≤ m.calls then _ else _ : Exec Value) m)
      ((if maxCalls ≤ m'.calls then _ else _ : Exec Value) m')
    -- Both machines count the same calls, so the bound is met in both or in neither.
    rw [hm.calls_eq]
    split
    · exact unaffected_fail _ m m' hm
    · have hcall := (hbody.inScope Scopes.global).counted
      exact (hcall.bind fun completion => unaffected_pure _) m m' hm

end Evaluator

end Exec

end LetLang
