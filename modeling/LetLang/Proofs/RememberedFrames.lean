import LetLang.Proofs.ScopeStack

/-! # Frames that are remembered

The number of a frame can be kept, and a frame can be entered below the one with that number at any
later time.  A number outlives its frame, though: when the frame is left, no frame has it, and then
the next one that is entered.  So what comes of it depends on whether the frame is still there.

## Key results

- `remembers`: every number that is used has been the current or the global frame's before
- `LooksUp`: which frames a lookup visits
- `permitted_iff_lookups_descend`: frames hang on lower ones all the time, and so every lookup comes
  down to the global frame, exactly if no frame is entered below one that is gone
- `remembered_frames_break_chains`: numbers that are remembered are not enough
-/

namespace LetLang.Scopes

variable {V F : Type}

/-- If the operation enters a frame below one with a given number, then it is one of these. -/
def Op.usesOneOf (ids : List FrameId) : Op V F → Bool
  | .pushChildOf parent => ids.contains parent
  | _ => true

/-- All numbers that the operations use are among `ids` or have been the current frame's before. -/
def remembers (s : Scopes V F) (ids : List FrameId) : List (Op V F) → Bool
  | [] => true
  | op :: ops =>
    op.usesOneOf (s.current :: ids) && remembers (op.apply s) (s.current :: ids) ops

/-- Every frame but the global one hangs on a frame below it. -/
def ParentsBelow (s : Scopes V F) : Prop :=
  ∀ i f, s.frames[i + 1]? = some f → ∃ p ≤ i, f.parent = some p

/-- A lookup, whatever it looks for, goes through the frames of `chain` from the current one on: all
    of them are there, each is further down than the one before, and the last is the global one. -/
structure LooksUp (s : Scopes V F) (chain : List FrameId) : Prop where
  static : StaticChain s s.current chain
  existing : ∀ i ∈ chain, i < s.depth
  descending : chain.Pairwise (· > ·)
  last : chain.getLast? = some global
  search : ∀ {α : Type} (get : Frame V F → Option α),
    s.search get = chain.findSome? fun i => (s.found get i).map (i, ·)

/-! ## Frames that are still there -/

namespace Stacked

variable {s : Scopes V F}

/-- In a stack that grew scope by scope, parents stand below. -/
private theorem parentsBelow (h : Stacked s) : ParentsBelow s := fun i f hf => (h.above i f hf).2

/-- The parent of a frame has the smaller id. -/
theorem parent_lt (h : Stacked s) {i parent : FrameId} {f : Frame V F}
    (hf : s.frames[i]? = some f) (hparent : f.parent = some parent) : parent < i := by
  cases i with
  | zero =>
    obtain ⟨f', hf', hnone, -⟩ := h.bottom
    obtain rfl : f = f' := Option.some.inj (hf.symm.trans hf')
    exact nomatch hparent.symm.trans hnone
  | succ i =>
    obtain ⟨p, hp, hparent'⟩ := h.parentsBelow i f hf
    obtain rfl : parent = p := Option.some.inj (hparent.symm.trans hparent')
    exact Nat.lt_succ_of_le hp

/-- Only the global frame hangs on no other. -/
private theorem eq_global (h : Stacked s) {i : FrameId} {f : Frame V F} (hf : s.frames[i]? = some f)
    (hparent : f.parent = none) : i = global := by
  cases i with
  | zero => rfl
  | succ i =>
    obtain ⟨p, -, hparent'⟩ := h.parentsBelow i f hf
    exact nomatch hparent.symm.trans hparent'

/-- From any frame a chain goes down, step by step, to the global frame. -/
private theorem descends (h : Stacked s) {i : FrameId} {chain : List FrameId}
    (hchain : StaticChain s i chain) :
    (∀ j ∈ chain, j ≤ i) ∧ chain.Pairwise (· > ·) ∧ chain.getLast? = some global := by
  induction hchain with
  | last hf hparent => simp [h.eq_global hf hparent]
  | @inner i parent f chain hf hparent hrest ih =>
    obtain ⟨hle, hpairwise, hlast⟩ := ih
    have hlt := h.parent_lt hf hparent
    -- The parent stands below, and with it the rest of the chain.
    have hbelow : ∀ j ∈ chain, j < i := fun j hj => Nat.lt_of_le_of_lt (hle j hj) hlt
    refine ⟨?_, List.pairwise_cons.mpr ⟨hbelow, hpairwise⟩, ?_⟩
    · intro j hj
      obtain rfl | hj := List.mem_cons.mp hj
      · exact Nat.le_refl _
      · exact Nat.le_of_lt (hbelow j hj)
    · rw [List.getLast?_cons, hlast]
      rfl

/-- In a stack every lookup ends at the global frame. -/
private theorem looksUp (h : Stacked s) : ∃ chain, LooksUp s chain := by
  obtain ⟨chain, hchain⟩ := h.exists_chain h.current_lt
  obtain ⟨hle, hpairwise, hlast⟩ := h.descends hchain
  have hlength : chain.length ≤ s.frames.size := by
    have := h.length_chain_le hchain
    rwa [← h.depth_eq] at this
  exact ⟨chain, hchain, fun i hi => Nat.lt_of_le_of_lt (hle i hi) h.current_lt, hpairwise, hlast,
    fun get => searchFrom_chain hchain get hlength⟩

/-- A frame that hangs on a lower one was entered below one that was there. -/
private theorem allowed_of_parentsBelow (h : Stacked s) {op : Op V F}
    (hop : ParentsBelow (op.apply s)) :
    op.allowed s = true := by
  cases op with
  | pushChildOf parent =>
    -- The frame that is entered comes next to the current one.
    have hnew := pushChildOf_frame_size s parent
    rw [show s.frames.size = s.current + 1 from h.depth_eq] at hnew
    obtain ⟨p, hp, hparent⟩ := hop s.current _ hnew
    obtain rfl : parent = p := Option.some.inj hparent
    rw [Op.allowed, h.depth_eq]
    exact decide_eq_true (Nat.lt_succ_of_le hp)
  | push | pop | defineVariable | defineFunction | redefineFunction | assign => rfl

/-- Lookups that always descend are permitted. -/
private theorem permitted_of_parentsBelow (h : Stacked s) {ops : List (Op V F)}
    (hops : ∀ before, before <+: ops → ParentsBelow (s.run before)) :
    s.permitted ops = true := by
  induction ops generalizing s with
  | nil => rfl
  | cons op ops ih =>
    have hop := h.allowed_of_parentsBelow (hops [op] ⟨ops, rfl⟩)
    rw [permitted, hop, Bool.true_and]
    apply ih (h.of_effect (h.effect hop))
    intro before hbefore
    exact hops (op :: before) (List.cons_prefix_cons.mpr ⟨rfl, hbefore⟩)

/-- Blocks and calls need no more than the current and the global frame, which are always there. -/
private theorem permitted_of_global (h : Stacked s) {ops : List (Op V F)}
    (hops : ∀ parent, .pushChildOf parent ∈ ops → parent = global) : s.permitted ops = true := by
  induction ops generalizing s with
  | nil => rfl
  | cons op ops ih =>
    have hop : op.allowed s = true := by
      cases op with
      | pushChildOf parent =>
        rw [hops parent List.mem_cons_self, Op.allowed, h.depth_eq]
        exact decide_eq_true (Nat.succ_pos _)
      | push | pop | defineVariable | defineFunction | redefineFunction | assign => rfl
    rw [permitted, hop, Bool.true_and]
    exact ih (h.of_effect (h.effect hop)) fun parent hmem =>
      hops parent (List.mem_cons_of_mem op hmem)

end Stacked

/-- What is permitted is so from the start. -/
private theorem permitted_append {s : Scopes V F} {ops ops' : List (Op V F)}
    (h : s.permitted (ops ++ ops') = true) : s.permitted ops = true := by
  induction ops generalizing s with
  | nil => rfl
  | cons op ops ih =>
    rw [List.cons_append, permitted, Bool.and_eq_true] at h
    rw [permitted, h.1, ih h.2]
    rfl

/-! ## Any operations -/

/-- What holds a stack together.  At every moment of a sequence of operations all frames hang on
    lower ones, and all lookups come down to the global frame through frames that are there, exactly
    if each frame is entered below one that is still there.  This is so if frames are only entered
    below the current and the global one. -/
theorem permitted_iff_lookups_descend (ops : List (Op V F)) :
    (new.permitted ops = true ↔ ∀ before, before <+: ops →
      ParentsBelow (new.run before) ∧ ∃ chain, LooksUp (new.run before) chain) ∧
    ((∀ parent, .pushChildOf parent ∈ ops → parent = global) → new.permitted ops = true) := by
  refine ⟨⟨fun hops before hbefore => ?_, fun hops => ?_⟩, Stacked.new.permitted_of_global⟩
  · obtain ⟨after, rfl⟩ := hbefore
    have hstacked : Stacked (new.run before) := Stacked.new.run (permitted_append hops)
    exact ⟨hstacked.parentsBelow, hstacked.looksUp⟩
  · exact Stacked.new.permitted_of_parentsBelow fun before hbefore => (hops before hbefore).1

/-- Enter a block, remember it, and enter a call and then a frame below the block. -/
def below : List (Op Nat String) :=
  [.push, .defineVariable "x" 1, .pushChildOf global, .pushChildOf 1]

theorem below_looksUp :
    new.permitted below = true ∧ ParentsBelow (new.run below) ∧
    (∃ chain, LooksUp (new.run below) chain) ∧ (new.run below).lookup? "x" = some 1 := by
  have hpermitted : new.permitted below = true := by decide
  have hlooks := (permitted_iff_lookups_descend below).1.mp hpermitted below (List.prefix_refl _)
  exact ⟨hpermitted, hlooks.1, hlooks.2, by decide⟩

/-! ## Frames that are gone -/

/-- Remember a block, leave it, and enter a frame below it, which gets the number of the block. -/
def reentered : List (Op Nat String) := [.push, .pop, .pushChildOf 1]

/-- Remember a block inside a block, leave both, and enter a frame below the inner one. -/
def dangling : List (Op Nat String) := [.push, .push, .pop, .pop, .pushChildOf 2]

/-- Let another frame take the place of the inner block, and enter one below the frame that hangs
    on it. -/
def crossed : List (Op Nat String) :=
  dangling ++ [.pushChildOf global, .defineVariable "y" 7, .pushChildOf 1]

/-- No chain leads from a frame that hangs on itself. -/
private theorem not_staticChain_of_loop {s : Scopes V F} {i : FrameId} {f : Frame V F}
    (hf : s.frames[i]? = some f) (hparent : f.parent = some i) (chain : List FrameId) :
    ¬ StaticChain s i chain := by
  -- A chain that came to the frame would have to come to it again.
  have hother : ∀ {j chain}, StaticChain s j chain → j ≠ i := by
    intro j chain hchain
    induction hchain with
    | last hf' hnone =>
      rintro rfl
      obtain rfl := Option.some.inj (hf.symm.trans hf')
      exact nomatch hparent.symm.trans hnone
    | inner hf' hparent' _ ih =>
      rintro rfl
      obtain rfl := Option.some.inj (hf.symm.trans hf')
      exact ih (Option.some.inj (hparent'.symm.trans hparent))
  exact fun hchain => hother hchain rfl

/-- No chain leads from a frame that hangs on one that is not there. -/
private theorem not_staticChain_of_missing {s : Scopes V F} {i parent : FrameId} {f : Frame V F}
    (hf : s.frames[i]? = some f) (hparent : f.parent = some parent)
    (hmissing : s.frames[parent]? = none) (chain : List FrameId) : ¬ StaticChain s i chain := by
  intro hchain
  cases hchain with
  | last hf' hnone =>
    obtain rfl := Option.some.inj (hf.symm.trans hf')
    exact nomatch hparent.symm.trans hnone
  | inner hf' hparent' hrest =>
    obtain rfl := Option.some.inj (hf.symm.trans hf')
    obtain rfl := Option.some.inj (hparent'.symm.trans hparent)
    cases hrest with
    | last hf'' _ => exact nomatch hmissing.symm.trans hf''
    | inner hf'' _ _ => exact nomatch hmissing.symm.trans hf''

/-- A frame whose parent stands above it is the counterexample. -/
private theorem not_parentsBelow {s : Scopes V F} {i parent : FrameId} {f : Frame V F}
    (hf : s.frames[i + 1]? = some f) (hparent : f.parent = some parent) (hlt : i < parent) :
    ¬ ParentsBelow s := by
  intro h
  obtain ⟨p, hp, hparent'⟩ := h i f hf
  obtain rfl := Option.some.inj (hparent.symm.trans hparent')
  exact Nat.not_lt.mpr hp hlt

/-- Numbers that are remembered do not keep frames hanging on lower ones.  A frame can be entered
    below itself, and then its chain never ends; or below a frame that is not there; or, when
    another frame has taken its place, below that one, in which then a name is found. -/
theorem remembered_frames_break_chains :
    (new.remembers [global] reentered = true ∧ ¬ ParentsBelow (new.run reentered) ∧
      ∀ chain, ¬ StaticChain (new.run reentered) (new.run reentered).current chain) ∧
    (new.remembers [global] dangling = true ∧ ¬ ParentsBelow (new.run dangling) ∧
      ∀ chain, ¬ StaticChain (new.run dangling) (new.run dangling).current chain) ∧
    new.remembers [global] crossed = true ∧ ¬ ParentsBelow (new.run crossed) ∧
      (new.run crossed).lookup? "y" = some 7 := by
  refine ⟨⟨by decide, ?_, ?_⟩, ⟨by decide, ?_, ?_⟩, by decide, ?_, by decide⟩
  · exact not_parentsBelow (i := 0) rfl rfl (by decide)
  · exact not_staticChain_of_loop rfl rfl
  · exact not_parentsBelow (i := 0) rfl rfl (by decide)
  · exact not_staticChain_of_missing rfl rfl rfl
  · exact not_parentsBelow (i := 0) rfl rfl (by decide)

end LetLang.Scopes
