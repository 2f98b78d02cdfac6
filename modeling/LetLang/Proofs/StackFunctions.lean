import LetLang.Proofs.Activation

/-! # The functions of a stack

What is true of every function that a stack of scopes holds stays true while frames come and go
and variables change, and is true of a fresh machine if it is true of its natives.

* `Scopes.AllFunctions`           every function of every frame has the property
* `allFunctions_nativeScopes`     so it is where a program starts
-/

namespace LetLang

open Scopes

namespace Scopes

variable {V F : Type} {P : F → Prop} {s s' : Scopes V F}

/-- Every function of every frame is one of which `P` holds. -/
def AllFunctions (P : F → Prop) (s : Scopes V F) : Prop :=
  ∀ i key f, s.found (·.functions.get? key) i = some f → P f

namespace AllFunctions

/-- A function that is found is one of all. -/
theorem function? (h : s.AllFunctions P) {name : String} {arity : Nat} {f : F}
    (hf : s.function? name arity = some f) : P f := by
  obtain ⟨found, hsearch, rfl⟩ := Option.map_eq_some_iff.mp hf
  exact h _ _ _ (found_of_search hsearch)

/-- Functions are part of the shape of a stack. -/
theorem sameShape (h : s.AllFunctions P) (hs : SameShape s s') : s'.AllFunctions P := by
  intro i key f hf
  rw [hs.found_function] at hf
  exact h i key f hf

/-- A new frame has no functions. -/
theorem pushChildOf (h : s.AllFunctions P) (parent : FrameId) :
    (s.pushChildOf parent).AllFunctions P := by
  intro i key f hf
  -- The new frame is empty, and beyond it there is none.
  obtain hlt | heq | hgt := Nat.lt_trichotomy i s.frames.size
  · rw [found_pushChildOf_lt _ _ _ hlt] at hf
    exact h i key f hf
  · subst heq
    rw [found, pushChildOf_frame_size] at hf
    cases hf
  · have hnone : (s.pushChildOf parent).frames[i]? = none := by
      rw [Array.getElem?_eq_none_iff, pushChildOf_size]
      omega
    rw [found, hnone] at hf
    cases hf

/-- Taking a frame away takes away at most some functions. -/
theorem pop (h : s.AllFunctions P) : s.pop.AllFunctions P := by
  unfold Scopes.pop
  split
  · exact h
  · split
    · intro i key f hf
      rw [found, Array.getElem?_pop] at hf
      split at hf
      · exact h i key f hf
      · cases hf
    · exact h

/-- A function of which `P` holds may be defined. -/
theorem redefineFunction (h : s.AllFunctions P) (name : String) (arity : Nat) {f : F} (hf : P f) :
    (s.redefineFunction name arity f).AllFunctions P := by
  intro i key f' hf'
  rw [found, redefineFunction_frame] at hf'
  split at hf'
  · rw [Option.bind_map] at hf'
    obtain ⟨frame, hframe, hget⟩ := Option.bind_eq_some_iff.mp hf'
    simp only [Function.comp, Table.get?_insert] at hget
    -- The new function stands under one key of the current frame.
    split at hget
    · cases hget
      exact hf
    · exact h i key f' (Option.bind_eq_some_iff.mpr ⟨frame, hframe, hget⟩)
  · exact h i key f' hf'

end AllFunctions

/-- A new stack has none. -/
private theorem allFunctions_new : (new : Scopes V F).AllFunctions P := by
  intro i key f hf
  obtain ⟨frame, hframe, hget⟩ := Option.bind_eq_some_iff.mp hf
  obtain ⟨hi, rfl⟩ := Array.getElem?_eq_some_iff.mp hframe
  obtain rfl : i = 0 := Nat.lt_one_iff.mp hi
  exact nomatch hget

end Scopes

/-- The functions that a program starts with are the natives. -/
theorem allFunctions_nativeScopes {P : Callable → Prop} {natives : List Native}
    (hP : ∀ native ∈ natives, P (.native native)) {s : Scopes Value Callable}
    (hs : nativeScopes natives = .ok s) : s.AllFunctions P :=
  of_nativeScopes allFunctions_new
    (fun native hmem _ h => h.redefineFunction _ _ (hP native hmem)) hs

end LetLang
