/-! # How a computation ends

Parsing, checking, natives and the machine are all computations with a state that end
either with a value or with an error.  `Ends x s Q E` says what holds in the two cases when
`x` starts in the state `s`; it is read off step by step with the rules below.

* `ends_bind`, `Ends.bind`   one computation after another
* `Ends.imp`, `Ends.mono`    weaker conclusions
* `Ends.of_ok`, `Ends.of_error`   from the rule back to a run

`endState` and `mapState` speak of the state in which a run has ended, in either case. -/

namespace LetLang

variable {ε σ α β : Type}

/-- Started in the state `s`, the computation `x` ends with a value and a state of which `Q`
    holds, or with an error and a state of which `E` holds. -/
def Ends (x : EStateM ε σ α) (s : σ) (Q : α → σ → Prop) (E : ε → σ → Prop) : Prop :=
  match x s with
  | .ok a s' => Q a s'
  | .error e s' => E e s'

/-- The state in which a run has ended. -/
def endState : EStateM.Result ε σ α → σ
  | .ok _ s => s
  | .error _ s => s

/-- The same end in another state. -/
def mapState {τ : Type} (f : σ → τ) : EStateM.Result ε σ α → EStateM.Result ε τ α
  | .ok a s => .ok a (f s)
  | .error e s => .error e (f s)

/-- Changing the state changes the last one too. -/
@[simp] theorem endState_mapState {τ : Type} (f : σ → τ) (r : EStateM.Result ε σ α) :
    endState (mapState f r) = f (endState r) := by
  cases r <;> rfl

/-- Two changes of the state are one. -/
@[simp] theorem mapState_mapState {τ ρ : Type} (f : σ → τ) (g : τ → ρ) (r : EStateM.Result ε σ α) :
    mapState g (mapState f r) = mapState (fun s => g (f s)) r := by
  cases r <;> rfl

section Rules

variable {s : σ} {Q : α → σ → Prop} {R : β → σ → Prop} {E : ε → σ → Prop}

/-- A value is there at once. -/
@[simp] theorem ends_pure {a : α} : Ends (pure a : EStateM ε σ α) s Q E ↔ Q a s := Iff.rfl

/-- An error is there at once. -/
@[simp] theorem ends_throw {e : ε} : Ends (throw e : EStateM ε σ α) s Q E ↔ E e s := Iff.rfl

/-- Reading the state changes nothing. -/
@[simp] theorem ends_get {Q : σ → σ → Prop} :
    Ends (get : EStateM ε σ σ) s Q E ↔ Q s s := Iff.rfl

/-- One computation after another: the second starts where the first ends well. -/
@[simp] theorem ends_bind {x : EStateM ε σ α} {f : α → EStateM ε σ β} :
    Ends (x >>= f) s R E ↔ Ends x s (fun a s' => Ends (f a) s' R E) E := by
  simp only [Ends, bind, EStateM.bind]
  cases x s <;> rfl

/-- A function of the value changes nothing but the value. -/
@[simp] theorem ends_map {x : EStateM ε σ α} {f : α → β} :
    Ends (f <$> x) s R E ↔ Ends x s (fun a s' => R (f a) s') E := by
  simp only [Ends, Functor.map, EStateM.map]
  cases x s <;> rfl

/-- Leaving out the value changes nothing else. -/
@[simp] theorem ends_discard {x : EStateM ε σ α} {R : Unit → σ → Prop} :
    Ends (discard x) s R E ↔ Ends x s (fun _ s' => R () s') E := by
  simp only [Ends, discard, Functor.mapConst, EStateM.map, Function.comp]
  cases x s <;> rfl

/-- What follows from the conclusions holds of the computation. -/
theorem Ends.imp {x : EStateM ε σ α} {Q' : α → σ → Prop} {E' : ε → σ → Prop}
    (h : Ends x s Q E) (hQ : ∀ a s', x s = .ok a s' → Q a s' → Q' a s')
    (hE : ∀ e s', x s = .error e s' → E e s' → E' e s') : Ends x s Q' E' := by
  unfold Ends at h ⊢
  cases hx : x s with
  | ok a s' => rw [hx] at h; exact hQ a s' hx h
  | error e s' => rw [hx] at h; exact hE e s' hx h

/-- What follows from the conclusion about the value holds of the computation. -/
theorem Ends.mono {x : EStateM ε σ α} {Q' : α → σ → Prop} (h : Ends x s Q E)
    (hQ : ∀ a s', x s = .ok a s' → Q a s' → Q' a s') : Ends x s Q' E :=
  h.imp hQ fun _ _ _ he => he

/-- A computation goes on from wherever it can have come to. -/
theorem Ends.bind {x : EStateM ε σ α} {f : α → EStateM ε σ β} (h : Ends x s Q E)
    (hf : ∀ a s', x s = .ok a s' → Q a s' → Ends (f a) s' R E) : Ends (x >>= f) s R E :=
  ends_bind.mpr (h.mono hf)

/-- What holds of a run that ends with a value. -/
theorem Ends.of_ok {x : EStateM ε σ α} {a : α} {s' : σ} (h : Ends x s Q E)
    (hx : x s = .ok a s') : Q a s' := by
  unfold Ends at h
  rwa [hx] at h

/-- What holds of a run that ends with an error. -/
theorem Ends.of_error {x : EStateM ε σ α} {e : ε} {s' : σ} (h : Ends x s Q E)
    (hx : x s = .error e s') : E e s' := by
  unfold Ends at h
  rwa [hx] at h

/-- What every item of a list keeps is kept by going through the list. -/
theorem ends_forM {f : α → EStateM ε σ Unit} {I : σ → Prop} {l : List α}
    (hf : ∀ a ∈ l, ∀ s, I s → Ends (f a) s (fun _ s' => I s') E) (hs : I s) :
    Ends (l.forM f) s (fun _ s' => I s') E := by
  induction l generalizing s with
  | nil => exact hs
  | cons a l ih =>
    show Ends (f a >>= fun _ => l.forM f) s (fun _ s' => I s') E
    refine (hf a List.mem_cons_self s hs).bind fun _ s' _ hs' => ?_
    exact ih (fun b hb => hf b (List.mem_cons_of_mem a hb)) hs'

/-- Two computations in a row end well only if both do. -/
theorem exists_of_bind_eq_ok {x : EStateM ε σ α} {f : α → EStateM ε σ β} {b : β} {s' : σ}
    (h : (x >>= f) s = .ok b s') : ∃ a s₁, x s = .ok a s₁ ∧ f a s₁ = .ok b s' := by
  simp only [bind, EStateM.bind] at h
  cases hx : x s with
  | ok a s₁ => rw [hx] at h; exact ⟨a, s₁, rfl, h⟩
  | error e s₁ => rw [hx] at h; exact nomatch h

/-- Going through a list and then one step further. -/
theorem forM_concat_eq_ok {f : α → EStateM ε σ Unit} {l : List α} {a : α} {s₁ s' : σ}
    (h : l.forM f s = .ok () s₁) (ha : f a s₁ = .ok () s') :
    (l ++ [a]).forM f s = .ok () s' := by
  induction l generalizing s with
  | nil =>
    cases h
    show (f a >>= fun _ => pure ()) _ = _
    simp only [bind, EStateM.bind, ha]
    rfl
  | cons b l ih =>
    obtain ⟨_, s₂, hb, hl⟩ := exists_of_bind_eq_ok h
    show (f b >>= fun _ => (l ++ [a]).forM f) s = _
    simp only [bind, EStateM.bind, hb]
    exact ih hl

end Rules

end LetLang
