import LetLang.Proofs.Cursor
import LetLang.Proofs.Lexemes

/-!
# One token of lookahead

What a step of the parser does depends on the tokens that it consumes and on the token behind them,
and on no other.  If it fails, then the tokens that it has consumed can be continued in another way.

* `OneAhead p stops fix c`   the step `p` is of this kind at the cursor `c`.  A token for which
  `stops` holds ends what `p` reads, and `fix` is what `p` accepts if it has read nothing yet
* `Mends lo k p stops fix`   started on `fix`, the step succeeds
* `Rule lo k p stops fix`    both, at every cursor that is nested at least `lo` deep
* `Rule.bind`, `rule_choice`, `Rule.turns`   steps in a row, choices and loops

A step that can succeed without reading anything has the empty list for `fix`. -/

namespace LetLang

/-! ## Places before other tokens -/

/-- The second cursor stands at the same place, but maybe before other tokens. -/
structure Cursor.Alike (c c' : Cursor) : Prop where
  consumed_eq : c'.consumed = c.consumed
  nextId_eq : c'.nextId = c.nextId
  depth_eq : c'.depth = c.depth

/-- The tokens `pre` lead from the first cursor to the second, which is nested no less. -/
structure Cursor.Moves (c d : Cursor) (pre : List Token) : Prop where
  rest_eq : c.rest = pre ++ d.rest
  consumed_eq : d.consumed = pre.foldl (fun _ t => t.stop) c.consumed
  depth_le : c.depth ≤ d.depth

namespace Cursor

variable {c c' d d' : Cursor}

/-- A cursor is like itself. -/
theorem Alike.refl (c : Cursor) : c.Alike c := ⟨rfl, rfl, rfl⟩

/-- What is seen depends on the next token only. -/
theorem sees_eq_any (c : Cursor) (w : String) : c.sees w = c.rest.head?.any (·.spells w) := by
  unfold sees
  cases c.rest <;> rfl

/-- Errors are placed at the next token, or behind the last one that was read. -/
theorem offset_eq_getD (c : Cursor) :
    c.offset = (c.rest.head?.map Token.offset).getD c.consumed := by
  unfold offset
  cases c.rest <;> rfl

/-- Cursors that are alike place their errors alike if they see the same token. -/
theorem Alike.offset_eq (h : c.Alike c') (hhead : c'.rest.head? = c.rest.head?) :
    c'.offset = c.offset := by
  rw [offset_eq_getD, offset_eq_getD, hhead, h.consumed_eq]

/-- The last token that was read is now the one advanced over. -/
private theorem advance_consumed {t : Token} {rest : List Token} (h : c.rest = t :: rest) :
    c.advance.consumed = t.stop := by
  unfold advance
  split
  · rename_i h'
    rw [h'] at h
    exact congrArg Token.stop (List.cons.inj h).1
  · rename_i h'
    rw [h'] at h
    exact nomatch h

@[simp] theorem advance_nextId (c : Cursor) : c.advance.nextId = c.nextId := by
  unfold advance
  split <;> rfl

/-- Cursors that are alike stay so over the same token. -/
theorem Alike.advance (h : c.Alike c') {t : Token} {rest rest' : List Token}
    (hc : c.rest = t :: rest) (hc' : c'.rest = t :: rest') : c.advance.Alike c'.advance where
  consumed_eq := by rw [advance_consumed hc, advance_consumed hc']
  nextId_eq := by simp [h.nextId_eq]
  depth_eq := by simp [h.depth_eq]

/-- The same place, one level deeper. -/
def deeper (c : Cursor) : Cursor := { c with depth := c.depth + 1 }

@[simp] theorem deeper_depth (c : Cursor) : c.deeper.depth = c.depth + 1 := rfl

/-- Going deeper reads nothing. -/
private theorem moves_deeper (c : Cursor) : c.Moves c.deeper [] := ⟨rfl, rfl, Nat.le_succ _⟩

private theorem moves_refl (c : Cursor) : c.Moves c [] := ⟨rfl, rfl, Nat.le_refl _⟩

/-- Advancing reads one token. -/
private theorem moves_advance {t : Token} {rest : List Token} (h : c.rest = t :: rest) :
    c.Moves c.advance [t] where
  rest_eq := by rw [advance_rest h, h]; rfl
  consumed_eq := advance_consumed h
  depth_le := by simp

/-- What two steps read is read one after the other. -/
theorem Moves.trans {pre pre' : List Token} (h : c.Moves d pre) (h' : d.Moves d' pre') :
    c.Moves d' (pre ++ pre') where
  rest_eq := by rw [h.rest_eq, h'.rest_eq, List.append_assoc]
  consumed_eq := by rw [h'.consumed_eq, h.consumed_eq, List.foldl_append]
  depth_le := Nat.le_trans h.depth_le h'.depth_le

/-- What is read is missing from what is left. -/
theorem Moves.length_eq {pre : List Token} (h : c.Moves d pre) :
    c.rest.length = pre.length + d.rest.length := by
  rw [h.rest_eq, List.length_append]

end Cursor

/-- The next token is none of the given words and signs. -/
def Avoids (words : List String) (next : Option Token) : Prop :=
  ∀ w ∈ words, next.any (·.spells w) = false

/-- The next token is one of the given words and signs. -/
def Sees (words : List String) (next : Option Token) : Prop :=
  ∃ w ∈ words, next.any (·.spells w) = true

instance (words : List String) (next : Option Token) : Decidable (Avoids words next) :=
  inferInstanceAs (Decidable (∀ w ∈ words, _))

instance (words : List String) (next : Option Token) : Decidable (Sees words next) :=
  inferInstanceAs (Decidable (∃ w ∈ words, _))

namespace Parse

open Cursor

variable {α β σ : Type}

/-! ## The property -/

/-- The step succeeded, having read `pre`, and does so again wherever the same tokens come and
    what follows them ends what it reads. -/
structure Passed (p : Parse α) (stops : Option Token → Prop) (fix : List Token) (c : Cursor)
    (a : α) (d : Cursor) (pre : List Token) : Prop where
  moves : c.Moves d pre
  fix_eq : pre = [] → fix = []
  again : ∀ c' rest, c.Alike c' → c'.rest = pre ++ rest →
    rest.head? = d.rest.head? ∨ stops rest.head? →
    ∃ d', p c' = .ok a d' ∧ d.Alike d' ∧ d'.rest = rest

/-- Behind `pre` the step failed at the next token, and does so again wherever the same tokens
    come.  Unless it is nested too deeply, some other tokens behind `pre` make it succeed. -/
structure Failed (p : Parse α) (stops : Option Token → Prop) (fix : List Token) (c : Cursor)
    (e : ParseError) (d : Cursor) (pre : List Token) : Prop where
  moves : c.Moves d pre
  offset_eq : e.offset = d.offset
  again : ∀ c' rest, c.Alike c' → c'.rest = pre ++ rest → rest.head? = d.rest.head? →
    ∃ d', p c' = .error e d'
  mends : e.fault ≠ .tooDeep → d.depth < maxNesting →
    ∃ vs, (∀ t ∈ vs, t.WellFormed) ∧ (pre = [] → vs = fix) ∧
      ∀ c' rest, c.Alike c' → c'.rest = pre ++ (vs ++ rest) → stops rest.head? →
        ∃ a d', p c' = .ok a d' ∧ d'.rest = rest ∧ c.depth ≤ d'.depth ∧ d'.depth ≤ d.depth

/-- What the step does at the cursor depends on what it reads and the token behind it, and what it
    has read when it fails can be continued. -/
def OneAhead (p : Parse α) (stops : Option Token → Prop) (fix : List Token) (c : Cursor) : Prop :=
  Ends p c (fun a d => ∃ pre, Passed p stops fix c a d pre)
    (fun e d => ∃ pre, Failed p stops fix c e d pre)

/-- Nested at least `lo` deep and with `k` levels to spare, the step accepts `fix`. -/
structure Mends (lo k : Nat) (p : Parse α) (stops : Option Token → Prop) (fix : List Token) :
    Prop where
  wellFormed : ∀ t ∈ fix, t.WellFormed
  run : ∀ (c : Cursor) (rest : List Token), lo ≤ c.depth → c.depth + k ≤ maxNesting →
    c.rest = fix ++ rest → stops rest.head? →
    ∃ a d, p c = .ok a d ∧ d.rest = rest ∧ d.depth = c.depth

/-- After a value the sequence goes on from where it stands. -/
theorem bind_of_ok {x : Parse α} {f : α → Parse β} {c d : Cursor} {a : α} (h : x c = .ok a d) :
    (x >>= f) c = f a d := by
  simp only [bind, EStateM.bind, h]

/-- After an error it does not. -/
theorem bind_of_error {x : Parse α} {f : α → Parse β} {c d : Cursor} {e : ParseError}
    (h : x c = .error e d) : (x >>= f) c = .error e d := by
  simp only [bind, EStateM.bind, h]

section Rules

variable {p q : Parse α} {stops stops' : Option Token → Prop} {fix fix' : List Token} {c : Cursor}
  {lo lo' k k' : Nat}

/-- Both outcomes have to be looked at. -/
private theorem oneAhead_intro (hok : ∀ a d, p c = .ok a d → ∃ pre, Passed p stops fix c a d pre)
    (herror : ∀ e d, p c = .error e d → ∃ pre, Failed p stops fix c e d pre) :
    OneAhead p stops fix c := by
  unfold OneAhead Ends
  cases hp : p c with
  | ok a d => exact hok a d hp
  | error e d => exact herror e d hp

/-- A value is reached by reading tokens. -/
theorem OneAhead.moves (h : OneAhead p stops fix c) {a : α} {d : Cursor} (hp : p c = .ok a d) :
    ∃ pre, c.Moves d pre ∧ (pre = [] → fix = []) := by
  obtain ⟨pre, hpass⟩ := h.of_ok hp
  exact ⟨pre, hpass.moves, hpass.fix_eq⟩

/-- Fewer tokens end what is read. -/
theorem OneAhead.imp (h : OneAhead p stops fix c) (hstops : ∀ next, stops' next → stops next) :
    OneAhead p stops' fix c := by
  apply Ends.imp h
  · intro a d _ hpass
    obtain ⟨pre, hmoves, hfix, hagain⟩ := hpass
    refine ⟨pre, hmoves, hfix, ?_⟩
    intro c' rest hc hrest hnext
    exact hagain c' rest hc hrest (hnext.imp id (hstops _))
  · intro e d _ hfail
    obtain ⟨pre, hmoves, hoffset, hagain, hmends⟩ := hfail
    refine ⟨pre, hmoves, hoffset, hagain, ?_⟩
    intro hfault hdepth
    obtain ⟨vs, hvs, hfix, hrun⟩ := hmends hfault hdepth
    exact ⟨vs, hvs, hfix, fun c' rest hc hrest hstop => hrun c' rest hc hrest (hstops _ hstop)⟩

/-- A step that reads `skip` and goes on as `q` does, at the place to which `move` leads. -/
theorem OneAhead.behind {skip : List Token} (move : Cursor → Cursor)
    (h : OneAhead q stops fix' (move c)) (hmove : c.Moves (move c) skip)
    (hfix : skip = [] → fix = fix')
    (hp : ∀ c' rest, c.Alike c' → c'.rest = skip ++ rest →
      p c' = q (move c') ∧ (move c).Alike (move c') ∧ (move c').rest = rest) :
    OneAhead p stops fix c := by
  -- The cursor itself is one of those that look alike.
  have hsame : p c = q (move c) := (hp c (move c).rest (.refl c) hmove.rest_eq).1
  -- Whatever happens behind the tokens that are skipped happens behind them everywhere.
  apply oneAhead_intro
  · intro a d hrun
    rw [hsame] at hrun
    obtain ⟨pre, hmoves, hfix', hagain⟩ := h.of_ok hrun
    refine ⟨skip ++ pre, hmove.trans hmoves, ?_, ?_⟩
    · intro hnil
      -- Nothing was read at all, so the completion is the same.
      obtain ⟨hskip, hpre⟩ := List.append_eq_nil_iff.mp hnil
      rw [hfix hskip, hfix' hpre]
    · intro c' rest hc hrest
      rw [List.append_assoc] at hrest
      obtain ⟨hp', hc', hrest'⟩ := hp c' _ hc hrest
      rw [hp']
      exact hagain (move c') rest hc' hrest'
  · intro e d hrun
    rw [hsame] at hrun
    obtain ⟨pre, hmoves, hoffset, hagain, hmends⟩ := h.of_error hrun
    refine ⟨skip ++ pre, hmove.trans hmoves, hoffset, ?_, ?_⟩
    · intro c' rest hc hrest
      rw [List.append_assoc] at hrest
      obtain ⟨hp', hc', hrest'⟩ := hp c' _ hc hrest
      rw [hp']
      exact hagain (move c') rest hc' hrest'
    -- An error is mended by what mends it behind the skipped tokens.
    · intro hfault hdepth
      obtain ⟨vs, hvs, hfix', hmended⟩ := hmends hfault hdepth
      refine ⟨vs, hvs, ?_, ?_⟩
      · intro hnil
        obtain ⟨hskip, hpre⟩ := List.append_eq_nil_iff.mp hnil
        rw [hfix hskip, hfix' hpre]
      · intro c' rest hc hrest hstop
        rw [List.append_assoc] at hrest
        obtain ⟨hp', hc', hrest'⟩ := hp c' _ hc hrest
        rw [hp']
        obtain ⟨a, d', hrun', hend, hle, hge⟩ := hmended (move c') rest hc' hrest' hstop
        exact ⟨a, d', hrun', hend, Nat.le_trans hmove.depth_le hle, hge⟩

/-- Only what the step does at such a place matters. -/
theorem OneAhead.congr (h : OneAhead q stops fix c) (hp : ∀ c', c.Alike c' → p c' = q c') :
    OneAhead p stops fix c := by
  apply h.behind id (moves_refl c) (fun _ => rfl)
  intro c' rest hc hrest
  exact ⟨hp c' hc, hc, hrest⟩

/-- Less room and fewer stops ask for less. -/
theorem Mends.imp (h : Mends lo k p stops fix) (hlo : lo ≤ lo') (hk : k ≤ k')
    (hstops : ∀ next, stops' next → stops next) : Mends lo' k' p stops' fix where
  wellFormed := h.wellFormed
  run := fun c rest hdepth hroom hrest hstop =>
    h.run c rest (by omega) (by omega) hrest (hstops _ hstop)

/-! ## Steps that read nothing -/

theorem oneAhead_pure (a : α) : OneAhead (pure a) stops [] c :=
  ⟨[], moves_refl c, fun _ => rfl, fun c' _ hc hrest _ => ⟨c', rfl, hc, hrest⟩⟩

/-- A value at once reads nothing. -/
theorem mends_pure (a : α) : Mends lo k (pure a : Parse α) stops [] :=
  ⟨(fun _ h => nomatch h), fun c _ _ _ hrest _ => ⟨a, c, rfl, hrest, rfl⟩⟩

private theorem oneAhead_fresh : OneAhead fresh stops [] c := by
  refine ⟨[], ⟨rfl, rfl, Nat.le_refl _⟩, fun _ => rfl, ?_⟩
  intro c' rest hc hrest _
  refine ⟨{ c' with nextId := c'.nextId + 1 }, ?_, ⟨hc.consumed_eq, ?_, hc.depth_eq⟩, hrest⟩
  · show EStateM.Result.ok c'.nextId _ = _
    rw [hc.nextId_eq]
  · show c'.nextId + 1 = c.nextId + 1
    rw [hc.nextId_eq]

private theorem mends_fresh : Mends lo k fresh stops [] :=
  ⟨(fun _ h => nomatch h), fun _ _ _ _ hrest _ => ⟨_, _, rfl, hrest, rfl⟩⟩

/-- A complaint about the nesting is left as it is. -/
private theorem oneAhead_tooDeep : OneAhead (fail .tooDeep : Parse α) stops fix c := by
  refine ⟨[], moves_refl c, rfl, ?_, fun hfault => absurd rfl hfault⟩
  intro c' rest hc hrest hhead
  rw [List.nil_append] at hrest
  rw [← hrest] at hhead
  refine ⟨c', ?_⟩
  simp only [fail, hc.offset_eq hhead]

/-! ## Steps in a row -/

/-- What is accepted from the start, at a place from which a failure is not far. -/
private theorem Mends.restart (h : Mends lo 1 p stops fix) {d : Cursor} (hlo : lo ≤ c.depth)
    (hle : c.depth ≤ d.depth) (hdepth : d.depth < maxNesting) :
    ∀ c' rest, c.Alike c' → c'.rest = [] ++ (fix ++ rest) → stops rest.head? →
      ∃ a d', p c' = .ok a d' ∧ d'.rest = rest ∧ c.depth ≤ d'.depth ∧ d'.depth ≤ d.depth := by
  intro c' rest hc hrest hstop
  have hdepth' := hc.depth_eq
  obtain ⟨a, d', hrun, hrest', hd'⟩ := h.run c' rest (by omega) (by omega) hrest hstop
  exact ⟨a, d', hrun, hrest', by omega, by omega⟩

section Bind

variable {x : Parse α} {f : α → Parse β} {stops₁ : Option Token → Prop} {fix₁ fix₂ : List Token}
  {a : α} {b : β} {e : ParseError} {d d' : Cursor} {pre pre' : List Token}

/-- If the first of two steps fails, what it needs is followed by what the second one accepts. -/
theorem Failed.bind [Inhabited α] (h : Failed x stops₁ fix₁ c e d pre) (hlo : lo ≤ c.depth)
    (hmend : ∀ a, Mends lo 1 (f a) stops fix₂)
    (hnext : ∀ rest : List Token, stops rest.head? → stops₁ (fix₂ ++ rest).head?) :
    Failed (x >>= f) stops (fix₁ ++ fix₂) c e d pre where
  moves := h.moves
  offset_eq := h.offset_eq
  again := by
    intro c' rest hc hrest hhead
    obtain ⟨d', hd'⟩ := h.again c' rest hc hrest hhead
    exact ⟨d', bind_of_error hd'⟩
  mends := by
    -- What mends the first step is followed by what completes the second.
    intro hfault hdepth
    obtain ⟨vs, hvs, hfix, hrun⟩ := h.mends hfault hdepth
    refine ⟨vs ++ fix₂, List.forall_mem_append.mpr ⟨hvs, (hmend default).wellFormed⟩, ?_, ?_⟩
    · intro hpre
      rw [hfix hpre]
    · -- The second step starts no deeper than the failure, so it has a level to spare.
      intro c' rest hc hrest hstop
      rw [List.append_assoc] at hrest
      obtain ⟨a, d₁, hrun₁, hrest₁, hle₁, hge₁⟩ := hrun c' _ hc hrest (hnext rest hstop)
      obtain ⟨b, d₂, hrun₂, hrest₂, hdepth₂⟩ :=
        (hmend a).run d₁ rest (by omega) (by omega) hrest₁ hstop
      refine ⟨b, d₂, ?_, hrest₂, by omega, by omega⟩
      rw [bind_of_ok hrun₁, hrun₂]

/-- Where the second step reads the same tokens again, the first one ends as before. -/
private theorem Passed.again_before (h : Passed x stops₁ fix₁ c a d pre) (hd : d.Moves d' pre')
    {c' : Cursor} {rest : List Token} (hc : c.Alike c') (hrest : c'.rest = pre ++ (pre' ++ rest))
    (hnext : pre' = [] → rest.head? = d'.rest.head? ∨ stops₁ rest.head?) :
    ∃ d₁, x c' = .ok a d₁ ∧ d.Alike d₁ ∧ d₁.rest = pre' ++ rest := by
  apply h.again c' _ hc hrest
  rw [hd.rest_eq]
  cases pre' with
  | nil => exact hnext rfl
  | cons t tail => exact .inl rfl

/-- Two passes in sequence, if the second starts with what may follow the first. -/
theorem Passed.bind (h : Passed x stops₁ fix₁ c a d pre) (hf : Passed (f a) stops fix₂ d b d' pre')
    (hnext : ∀ rest : List Token, stops rest.head? → stops₁ (fix₂ ++ rest).head?) :
    Passed (x >>= f) stops (fix₁ ++ fix₂) c b d' (pre ++ pre') where
  moves := h.moves.trans hf.moves
  fix_eq := by
    intro hpre
    obtain ⟨hpre₁, hpre₂⟩ := List.append_eq_nil_iff.mp hpre
    rw [h.fix_eq hpre₁, hf.fix_eq hpre₂]
    rfl
  again := by
    intro c' rest hc hrest hhead
    rw [List.append_assoc] at hrest
    -- The first step sees the token that the second one starts with, or, if that reads nothing,
    -- what follows both.
    obtain ⟨d₁, hrun₁, hd₁, hrest₁⟩ := h.again_before hf.moves hc hrest fun hpre =>
      hhead.imp id fun hstop => by
        have hstop₁ := hnext rest hstop
        rwa [hf.fix_eq hpre] at hstop₁
    obtain ⟨d₂, hrun₂, hd₂, hrest₂⟩ := hf.again d₁ rest hd₁ hrest₁ hhead
    exact ⟨d₂, (bind_of_ok hrun₁).trans hrun₂, hd₂, hrest₂⟩

/-- If the second step fails, it can be mended, and the first one ends before that. -/
private theorem Passed.bind_failed (h : Passed x stops₁ fix₁ c a d pre)
    (hf : Failed (f a) stops fix₂ d e d' pre')
    (hnext : ∀ rest : List Token, stops rest.head? → stops₁ (fix₂ ++ rest).head?) :
    Failed (x >>= f) stops (fix₁ ++ fix₂) c e d' (pre ++ pre') where
  moves := h.moves.trans hf.moves
  offset_eq := hf.offset_eq
  again := by
    intro c' rest hc hrest hhead
    rw [List.append_assoc] at hrest
    obtain ⟨d₁, hrun₁, hd₁, hrest₁⟩ := h.again_before hf.moves hc hrest fun _ => .inl hhead
    obtain ⟨d₂, hrun₂⟩ := hf.again d₁ rest hd₁ hrest₁ hhead
    exact ⟨d₂, (bind_of_ok hrun₁).trans hrun₂⟩
  mends := by
    intro hfault hdepth
    obtain ⟨vs, hvs, hfix, hrun⟩ := hf.mends hfault hdepth
    refine ⟨vs, hvs, ?_, ?_⟩
    · intro hpre
      obtain ⟨hpre₁, hpre₂⟩ := List.append_eq_nil_iff.mp hpre
      rw [hfix hpre₂, h.fix_eq hpre₁]
      rfl
    · intro c' rest hc hrest hstop
      rw [List.append_assoc] at hrest
      -- If the second step had read nothing, it now reads `fix₂`, at which the first one ends.
      obtain ⟨d₁, hrun₁, hd₁, hrest₁⟩ := h.again_before hf.moves hc hrest fun hpre => by
        rw [hfix hpre]
        exact .inr (hnext rest hstop)
      obtain ⟨b, d₂, hrun₂, hrest₂, hle₂, hge₂⟩ := hrun d₁ rest hd₁ hrest₁ hstop
      have hle := h.moves.depth_le
      exact ⟨b, d₂, (bind_of_ok hrun₁).trans hrun₂, hrest₂, by omega, hge₂⟩

/-- One step after another.  The first one has to end where the second one can start. -/
theorem OneAhead.bind [Inhabited α] (hx : OneAhead x stops₁ fix₁ c) (hlo : lo ≤ c.depth)
    (hf : ∀ a d, x c = .ok a d → lo ≤ d.depth → OneAhead (f a) stops fix₂ d)
    (hmend : ∀ a, Mends lo 1 (f a) stops fix₂)
    (hnext : ∀ rest : List Token, stops rest.head? → stops₁ (fix₂ ++ rest).head?) :
    OneAhead (x >>= f) stops (fix₁ ++ fix₂) c := by
  -- Either the first step fails, and then both do, or the second one decides.
  cases hrun : x c with
  | error e d =>
    obtain ⟨pre, hfail⟩ := hx.of_error hrun
    unfold OneAhead Ends
    rw [bind_of_error hrun]
    exact ⟨pre, hfail.bind hlo hmend hnext⟩
  | ok a d =>
    obtain ⟨pre, hpass⟩ := hx.of_ok hrun
    have hd := hf a d hrun (Nat.le_trans hlo hpass.moves.depth_le)
    unfold OneAhead Ends
    rw [bind_of_ok hrun]
    cases hrun' : f a d with
    | ok b d' =>
      obtain ⟨pre', hpass'⟩ := hd.of_ok hrun'
      exact ⟨pre ++ pre', hpass.bind hpass' hnext⟩
    | error e d' =>
      obtain ⟨pre', hfail'⟩ := hd.of_error hrun'
      exact ⟨pre ++ pre', hpass.bind_failed hfail' hnext⟩

/-- A sequence is mended part by part. -/
theorem Mends.bind [Inhabited α] (hx : Mends lo k x stops₁ fix₁)
    (hf : ∀ a, Mends lo k (f a) stops fix₂)
    (hnext : ∀ rest : List Token, stops rest.head? → stops₁ (fix₂ ++ rest).head?) :
    Mends lo k (x >>= f) stops (fix₁ ++ fix₂) where
  wellFormed := List.forall_mem_append.mpr ⟨hx.wellFormed, (hf default).wellFormed⟩
  run := by
    intro c rest hlo hroom hrest hstop
    rw [List.append_assoc] at hrest
    obtain ⟨a, d₁, hrun₁, hrest₁, hdepth₁⟩ := hx.run c _ hlo hroom hrest (hnext rest hstop)
    obtain ⟨b, d₂, hrun₂, hrest₂, hdepth₂⟩ :=
      (hf a).run d₁ rest (by omega) (by omega) hrest₁ hstop
    exact ⟨b, d₂, (bind_of_ok hrun₁).trans hrun₂, hrest₂, hdepth₂.trans hdepth₁⟩

end Bind

/-- A function of the value does not read. -/
theorem OneAhead.map [Inhabited α] (h : OneAhead p stops fix c) (g : α → β) :
    OneAhead (g <$> p) stops fix c := by
  rw [map_eq_pure_bind]
  have hbind := h.bind (Nat.le_refl _) (fun a d _ _ => oneAhead_pure (g a))
    (fun a => mends_pure (g a)) fun _ hstop => hstop
  rwa [List.append_nil] at hbind

/-! ## Looking at the next token -/

/-- A step that goes on as `q` does, as the next token has it. -/
theorem OneAhead.look (hq : OneAhead q stops fix' c) (hlo : lo ≤ c.depth)
    (hp : ∀ c', c.Alike c' → c'.rest.head? = c.rest.head? → p c' = q c')
    (hstop : fix' = [] → fix = [] ∧ ∀ c', c.Alike c' → stops c'.rest.head? → p c' = q c')
    (hmend : Mends lo 1 p stops fix) : OneAhead p stops fix c := by
  have hsame := hp c (.refl c) rfl
  -- If anything is read, then the next token is the same.
  have hhead : ∀ {d : Cursor} {pre rest : List Token} {c' : Cursor}, c.Moves d pre → pre ≠ [] →
      c.Alike c' → c'.rest = pre ++ rest → p c' = q c' := by
    intro d pre rest c' hmoves hpre hc hrest
    apply hp c' hc
    rw [hrest, hmoves.rest_eq]
    cases pre with
    | nil => exact absurd rfl hpre
    | cons t tail => rfl
  apply oneAhead_intro
  · intro a d hrun
    rw [hsame] at hrun
    obtain ⟨pre, hmoves, hfix, hagain⟩ := hq.of_ok hrun
    refine ⟨pre, hmoves, fun hpre => (hstop (hfix hpre)).1, ?_⟩
    intro c' rest hc hrest hnext
    have hsame' : p c' = q c' := by
      by_cases hpre : pre = []
      · subst hpre
        have hrest' : c'.rest = rest := hrest
        have hcd : c.rest = d.rest := hmoves.rest_eq
        rw [← hrest', ← hcd] at hnext
        obtain hnext | hnext := hnext
        · exact hp c' hc hnext
        · exact (hstop (hfix rfl)).2 c' hc hnext
      · exact hhead hmoves hpre hc hrest
    rw [hsame']
    exact hagain c' rest hc hrest hnext
  · intro e d hrun
    rw [hsame] at hrun
    obtain ⟨pre, hmoves, hoffset, hagain, hmends⟩ := hq.of_error hrun
    by_cases hpre : pre = []
    · -- Nothing was read yet, so the step can start anew with what it accepts.
      subst hpre
      refine ⟨[], hmoves, hoffset, ?_, ?_⟩
      · intro c' rest hc hrest hnext
        rw [hp c' hc (by rw [hrest, hmoves.rest_eq]; exact hnext)]
        exact hagain c' rest hc hrest hnext
      · intro _ hdepth
        exact ⟨fix, hmend.wellFormed, fun _ => rfl, hmend.restart hlo hmoves.depth_le hdepth⟩
    · refine ⟨pre, hmoves, hoffset, ?_, ?_⟩
      · intro c' rest hc hrest hnext
        rw [hhead hmoves hpre hc hrest]
        exact hagain c' rest hc hrest hnext
      · intro hfault hdepth
        obtain ⟨vs, hvs, _, hmended⟩ := hmends hfault hdepth
        refine ⟨vs, hvs, fun h => absurd h hpre, ?_⟩
        intro c' rest hc hrest hnext
        rw [hhead hmoves hpre hc hrest]
        exact hmended c' rest hc hrest hnext

/-- A step that fails at once, as the next token has it. -/
theorem oneAhead_fails (fault : ParseFault) (hlo : lo ≤ c.depth)
    (hp : ∀ c', c.Alike c' → c'.rest.head? = c.rest.head? → p c' = fail fault c')
    (hmend : Mends lo 1 p stops fix) : OneAhead p stops fix c := by
  have hrun : p c = .error ⟨c.offset, fault⟩ c := hp c (.refl c) rfl
  unfold OneAhead Ends
  rw [hrun]
  refine ⟨[], moves_refl c, rfl, ?_, ?_⟩
  -- The error is placed at the next token, which is the same.
  · intro c' rest hc hrest hnext
    rw [List.nil_append] at hrest
    rw [← hrest] at hnext
    refine ⟨c', ?_⟩
    rw [hp c' hc hnext]
    simp only [fail, hc.offset_eq hnext]
  · intro _ hdepth
    exact ⟨fix, hmend.wellFormed, fun _ => rfl, hmend.restart hlo (Nat.le_refl _) hdepth⟩

/-- The next token is consumed. -/
theorem oneAhead_advance {t : Token} {rest : List Token} (hrest : c.rest = t :: rest)
    (hp : OneAhead p stops fix' c.advance) : OneAhead (advance >>= fun _ => p) stops fix c := by
  apply hp.behind Cursor.advance (moves_advance hrest) (fun h => nomatch h)
  intro c' rest' hc hrest'
  exact ⟨rfl, hc.advance hrest hrest', advance_rest hrest'⟩

/-- A rule that agrees with another one on what mends it is mended alike. -/
theorem Mends.look (hq : Mends lo k q stops fix)
    (hp : ∀ (c : Cursor) (rest : List Token), c.rest = fix ++ rest → stops rest.head? → p c = q c) :
    Mends lo k p stops fix where
  wellFormed := hq.wellFormed
  run := by
    intro c rest hlo hroom hrest hstop
    rw [hp c rest hrest hstop]
    exact hq.run c rest hlo hroom hrest hstop

/-- What is advanced over is a part of the text that mends. -/
theorem Mends.advance {t : Token} (hp : Mends lo k p stops fix) (ht : t.WellFormed) :
    Mends lo k (Parse.advance >>= fun _ => p) stops (t :: fix) where
  wellFormed := List.forall_mem_cons.mpr ⟨ht, hp.wellFormed⟩
  run := by
    intro c rest hlo hroom hrest hstop
    rw [← c.advance_depth] at hlo hroom
    rw [← c.advance_depth]
    exact hp.run c.advance rest hlo hroom (advance_rest hrest) hstop

/-! ## Nesting -/

/-- Going deeper fails in the same way for every continuation. -/
theorem oneAhead_enter (hp : OneAhead p stops fix c.deeper) :
    OneAhead (enter >>= fun _ => p) stops fix c := by
  by_cases hdepth : c.depth < maxNesting
  · apply hp.behind deeper (moves_deeper c) (fun _ => rfl)
    intro c' rest hc hrest
    have hdepth' : ¬maxNesting ≤ c'.depth := by
      rw [hc.depth_eq]
      omega
    refine ⟨?_, ⟨hc.consumed_eq, hc.nextId_eq, congrArg (· + 1) hc.depth_eq⟩, hrest⟩
    simp only [bind, EStateM.bind, enter, if_neg hdepth', deeper]
  -- Nested too deeply, the step does what a complaint about it does.
  · have hdeep : OneAhead (fail .tooDeep : Parse α) stops fix c := oneAhead_tooDeep
    apply hdeep.congr
    intro c' hc
    have hdepth' : maxNesting ≤ c'.depth := by
      rw [hc.depth_eq]
      omega
    simp only [bind, EStateM.bind, enter, if_pos hdepth', fail]

/-- Putting the depth back reads nothing. -/
theorem OneAhead.restoringDepth (h : OneAhead p stops fix c) :
    OneAhead (Parse.restoringDepth p) stops fix c := by
  -- The depth is put back after a value only, so the two outcomes are different runs of the rule.
  have hok : ∀ {c' d' : Cursor} {a : α}, p c' = .ok a d' →
      Parse.restoringDepth p c' = .ok a { d' with depth := c'.depth } := by
    intro c' d' a hrun
    simp only [Parse.restoringDepth, hrun]
  have herror : ∀ {c' d' : Cursor} {e : ParseError}, p c' = .error e d' →
      Parse.restoringDepth p c' = .error e d' := by
    intro c' d' e hrun
    simp only [Parse.restoringDepth, hrun]
  unfold OneAhead Ends
  cases hrun : p c with
  | ok a d =>
    rw [hok hrun]
    obtain ⟨pre, hmoves, hfix, hagain⟩ := h.of_ok hrun
    refine ⟨pre, ⟨hmoves.rest_eq, hmoves.consumed_eq, Nat.le_refl _⟩, hfix, ?_⟩
    intro c' rest hc hrest hnext
    obtain ⟨d', hrun', hd', hrest'⟩ := hagain c' rest hc hrest hnext
    exact ⟨_, hok hrun', ⟨hd'.consumed_eq, hd'.nextId_eq, hc.depth_eq⟩, hrest'⟩
  | error e d =>
    rw [herror hrun]
    obtain ⟨pre, hmoves, hoffset, hagain, hmends⟩ := h.of_error hrun
    refine ⟨pre, hmoves, hoffset, ?_, ?_⟩
    · intro c' rest hc hrest hnext
      obtain ⟨d', hrun'⟩ := hagain c' rest hc hrest hnext
      exact ⟨d', herror hrun'⟩
    · intro hfault hdepth
      obtain ⟨vs, hvs, hfix, hmended⟩ := hmends hfault hdepth
      refine ⟨vs, hvs, hfix, ?_⟩
      intro c' rest hc hrest hstop
      obtain ⟨a, d', hrun', hrest', _, _⟩ := hmended c' rest hc hrest hstop
      have hdepth' := hc.depth_eq
      have hle := hmoves.depth_le
      exact ⟨a, _, hok hrun', hrest', Nat.le_of_eq hdepth'.symm, by
        show c'.depth ≤ d.depth
        omega⟩

theorem Mends.restoringDepth (h : Mends lo k p stops fix) :
    Mends lo k (Parse.restoringDepth p) stops fix where
  wellFormed := h.wellFormed
  run := by
    intro c rest hlo hroom hrest hstop
    obtain ⟨a, d, hrun, hrest', _⟩ := h.run c rest hlo hroom hrest hstop
    refine ⟨a, { d with depth := c.depth }, ?_, hrest', rfl⟩
    simp only [Parse.restoringDepth, hrun]

/-- Going one level deeper takes one level of room. -/
theorem Mends.restoringDepth_enter (h : Mends (lo + 1) 0 p stops fix) :
    Mends lo 1 (Parse.restoringDepth (enter >>= fun _ => p)) stops fix where
  wellFormed := h.wellFormed
  run := by
    intro c rest hlo hroom hrest hstop
    have hdepth : ¬maxNesting ≤ c.depth := by omega
    obtain ⟨a, d, hrun, hrest', _⟩ :=
      h.run { c with depth := c.depth + 1 } rest (Nat.succ_le_succ hlo) hroom hrest hstop
    refine ⟨a, { d with depth := c.depth }, ?_, hrest', rfl⟩
    simp only [Parse.restoringDepth, Bind.bind, EStateM.bind, enter, if_neg hdepth, hrun]

/-! ## Rules of a grammar -/

/-- Nested at least `lo` deep, the step is of this kind everywhere, and accepts `fix` with `k`
    levels to spare. -/
structure Rule (lo k : Nat) (p : Parse α) (stops : Option Token → Prop) (fix : List Token) :
    Prop where
  room : k ≤ 1
  ahead : ∀ c, lo ≤ c.depth → OneAhead p stops fix c
  mends : Mends lo k p stops fix

namespace Rule

/-- A rule that needs no level is mended with one as well. -/
private theorem mends_one (h : Rule lo k p stops fix) : Mends lo 1 p stops fix :=
  h.mends.imp (Nat.le_refl _) h.room fun _ hstop => hstop

/-- A rule may be asked for less. -/
theorem imp (h : Rule lo k p stops fix) (hlo : lo ≤ lo')
    (hstops : ∀ next, stops' next → stops next) : Rule lo' k p stops' fix where
  room := h.room
  ahead := fun c hc => (h.ahead c (Nat.le_trans hlo hc)).imp hstops
  mends := h.mends.imp hlo (Nat.le_refl _) hstops

/-- Rules in sequence complete each other's text. -/
theorem bind [Inhabited α] {x : Parse α} {f : α → Parse β} {stops₁ : Option Token → Prop}
    {fix₁ fix₂ : List Token} (hx : Rule lo k x stops₁ fix₁)
    (hf : ∀ a, Rule lo k (f a) stops fix₂)
    (hnext : ∀ rest : List Token, stops rest.head? → stops₁ (fix₂ ++ rest).head?) :
    Rule lo k (x >>= f) stops (fix₁ ++ fix₂) where
  room := hx.room
  ahead := fun c hlo => (hx.ahead c hlo).bind hlo (fun a d _ hd => (hf a).ahead d hd)
    (fun a => (hf a).mends_one) hnext
  mends := hx.mends.bind (fun a => (hf a).mends) hnext

/-- A step whose end does not depend on what comes next, and then another one. -/
theorem before [Inhabited α] {x : Parse α} {f : α → Parse β} {fix₁ fix₂ : List Token}
    (hx : Rule lo k x (fun _ => True) fix₁) (hf : ∀ a, Rule lo k (f a) stops fix₂) :
    Rule lo k (x >>= f) stops (fix₁ ++ fix₂) :=
  hx.bind hf fun _ _ => trivial

/-- A step and then one that need not read anything. -/
theorem andThen [Inhabited α] {x : Parse α} {f : α → Parse β} {stops₁ : Option Token → Prop}
    (hx : Rule lo k x stops₁ fix) (hf : ∀ a, Rule lo k (f a) stops [])
    (hstops : ∀ next, stops next → stops₁ next) : Rule lo k (x >>= f) stops fix := by
  have h := hx.bind hf fun _ hstop => hstops _ hstop
  rwa [List.append_nil] at h

end Rule

/-- A value at once is complete. -/
theorem rule_pure (hk : k ≤ 1) (a : α) : Rule lo k (pure a : Parse α) stops [] :=
  ⟨hk, fun _ _ => oneAhead_pure a, mends_pure a⟩

/-- Making a node is complete. -/
theorem rule_fresh (hk : k ≤ 1) {f : NodeId → α} :
    Rule lo k (do return f (← fresh)) stops [] :=
  Rule.andThen ⟨hk, fun _ _ => oneAhead_fresh, mends_fresh⟩ (fun id => rule_pure hk (f id))
    fun _ hstop => hstop

/-- Nested too deeply already, a step need not accept anything. -/
theorem rule_tooDeep (hlo : maxNesting < lo) (hfix : ∀ t ∈ fix, t.WellFormed) :
    Rule lo 1 (fail .tooDeep : Parse α) stops fix := by
  refine ⟨Nat.le_refl _, fun _ _ => oneAhead_tooDeep, hfix, ?_⟩
  intro c rest hdepth hroom
  omega

/-- A function of the value does not change what completes the text. -/
theorem Rule.map [Inhabited α] (h : Rule lo k p stops fix) (f : α → β) :
    Rule lo k (f <$> p) stops fix := by
  rw [map_eq_pure_bind]
  exact h.andThen (fun a => rule_pure h.room (f a)) fun _ hstop => hstop

theorem Rule.restoringDepth (h : Rule lo k p stops fix) :
    Rule lo k (Parse.restoringDepth p) stops fix :=
  ⟨h.room, fun c hlo => (h.ahead c hlo).restoringDepth, h.mends.restoringDepth⟩

/-- A rule one level deeper takes one level. -/
theorem Rule.restoringDepth_enter (h : Rule (lo + 1) 0 p stops fix) :
    Rule lo 1 (Parse.restoringDepth (enter >>= fun _ => p)) stops fix where
  room := Nat.le_refl _
  ahead := fun _ hlo => (oneAhead_enter (h.ahead _ (Nat.succ_le_succ hlo))).restoringDepth
  mends := h.mends.restoringDepth_enter

/-! ## Choices -/

section Choices

variable {w : String} {t : Token} {fix₂ : List Token}

/-- A token that avoids a word does not spell it. -/
private theorem sees_eq_false (h : Avoids [w] c.rest.head?) : c.sees w = false := by
  rw [sees_eq_any]
  exact h w (List.mem_singleton.mpr rfl)

private theorem sees_eq_true (h : Sees [w] c.rest.head?) : c.sees w = true := by
  obtain ⟨w', hw', hspells⟩ := h
  rwa [sees_eq_any, ← List.mem_singleton.mp hw']

/-- Cursors with the same next token see the same words. -/
private theorem sees_congr {c' : Cursor} (h : c'.rest.head? = c.rest.head?) (w : String) :
    c'.sees w = c.sees w := by
  rw [sees_eq_any, sees_eq_any, h]

/-- Where the word stands next, the first branch is taken. -/
private theorem sees_of_sees (h : c.sees w = true) :
    (do if ← sees w then p else q : Parse α) c = p c := by
  simp [bind, EStateM.bind, sees, h]

/-- Elsewhere the second. -/
private theorem sees_of_not_sees (h : c.sees w = false) :
    (do if ← sees w then p else q : Parse α) c = q c := by
  simp [bind, EStateM.bind, sees, h]

/-- To accept a word or sign is to look for it and then to consume it. -/
private theorem accept_eq_sees :
    (do if ← accept w then p else q : Parse α) = (do if ← sees w then (do advance; p) else q) := by
  funext c
  cases hsees : c.sees w with
  | true =>
    rw [sees_of_sees hsees]
    simp only [bind, EStateM.bind, accept, advance, hsees, if_true]
  | false =>
    rw [sees_of_not_sees hsees]
    simp [bind, EStateM.bind, accept, hsees]

/-- What holds of every list that ends a step holds of every such token. -/
private theorem of_stops {P : Option Token → Prop}
    (h : ∀ rest : List Token, stops rest.head? → P ([] ++ rest).head?) :
    ∀ next, stops next → P next := by
  intro next hstop
  cases next with
  | none => exact h [] hstop
  | some t => exact h [t] hstop

/-- A choice that either way can read nothing only if the step accepts nothing, and only in front
    of what the choice is made by. -/
theorem rule_choice (hk : k ≤ 1)
    (hp : ∀ c, lo ≤ c.depth → c.sees w = true → OneAhead p stops fix' c)
    (hq : ∀ c, lo ≤ c.depth → c.sees w = false → OneAhead q stops fix₂ c)
    (hstop : fix' = [] → fix = [] ∧ ∀ next, stops next → Sees [w] next)
    (hstop₂ : fix₂ = [] → fix = [] ∧ ∀ next, stops next → Avoids [w] next)
    (hmend : Mends lo k (do if ← sees w then p else q) stops fix) :
    Rule lo k (do if ← sees w then p else q) stops fix := by
  refine ⟨hk, fun c hlo => ?_, hmend⟩
  have hmend_one := hmend.imp (Nat.le_refl _) hk fun _ h => h
  -- The next token decides the branch, and a cursor that sees the same one takes the same.
  cases hsees : c.sees w with
  | true =>
    refine (hp c hlo hsees).look hlo ?_ ?_ hmend_one
    · intro c' _ hhead
      exact sees_of_sees ((sees_congr hhead w).trans hsees)
    · intro hnil
      obtain ⟨hfix, hend⟩ := hstop hnil
      exact ⟨hfix, fun c' _ hnext => sees_of_sees (sees_eq_true (hend _ hnext))⟩
  | false =>
    refine (hq c hlo hsees).look hlo ?_ ?_ hmend_one
    · intro c' _ hhead
      exact sees_of_not_sees ((sees_congr hhead w).trans hsees)
    · intro hnil
      obtain ⟨hfix, hend⟩ := hstop₂ hnil
      exact ⟨hfix, fun c' _ hnext => sees_of_not_sees (sees_eq_false (hend _ hnext))⟩

/-- The step starts with the word or sign, or ends in front of it. -/
theorem Rule.sees (hp : Rule lo k p stops fix) (hq : Rule lo k q stops fix₂) (hne : fix₂ ≠ [])
    (hnext : ∀ rest : List Token, stops rest.head? → Sees [w] (fix ++ rest).head?) :
    Rule lo k (do if ← Parse.sees w then p else q) stops fix := by
  -- The completion takes the first branch, since it starts with the word.
  apply rule_choice hp.room (fun c hlo _ => hp.ahead c hlo) (fun c hlo _ => hq.ahead c hlo)
  · intro hnil
    subst hnil
    exact ⟨rfl, of_stops hnext⟩
  · exact fun hnil => absurd hnil hne
  · apply hp.mends.look
    intro c rest hrest hstop
    apply sees_of_sees (sees_eq_true _)
    rw [hrest]
    exact hnext rest hstop

/-- The step need not start with the word or sign. -/
theorem Rule.sees_not (hq : Rule lo k q stops fix)
    (hp : ∀ c, lo ≤ c.depth → c.sees w = true → OneAhead p stops fix₂ c) (hne : fix₂ ≠ [])
    (hnext : ∀ rest : List Token, stops rest.head? → Avoids [w] (fix ++ rest).head?) :
    Rule lo k (do if ← Parse.sees w then p else q) stops fix := by
  -- The completion takes the second branch, since it does not start with the word.
  apply rule_choice hq.room hp (fun c hlo _ => hq.ahead c hlo)
  · exact fun hnil => absurd hnil hne
  · intro hnil
    subst hnil
    exact ⟨rfl, of_stops hnext⟩
  · apply hq.mends.look
    intro c rest hrest hstop
    apply sees_of_not_sees (sees_eq_false _)
    rw [hrest]
    exact hnext rest hstop

/-- What comes behind a word or sign is read with it. -/
private theorem oneAhead_advance_of_sees (hp : ∀ c, lo ≤ c.depth → OneAhead p stops fix' c) :
    ∀ c, lo ≤ c.depth → c.sees w = true → OneAhead (do advance; p) stops fix c := by
  intro c hlo hsees
  obtain ⟨t, rest, hrest, _⟩ := exists_of_sees hsees
  exact oneAhead_advance hrest (hp c.advance (by simpa))

/-- A text that starts with the word is mended in the first branch. -/
theorem Mends.accept (hp : Mends lo k p stops fix) (ht : t.WellFormed) (hw : t.spells w = true) :
    Mends lo k (do if ← Parse.accept w then p else q) stops (t :: fix) := by
  apply (hp.advance ht).look
  intro c rest hrest _
  rw [accept_eq_sees]
  apply sees_of_sees
  rw [sees_eq_any, hrest]
  exact hw

/-- The word or sign is consumed if it is there, and the step accepts it. -/
theorem Rule.accept (ht : t.WellFormed) (hw : t.spells w = true) (hp : Rule lo k p stops fix)
    (hq : Rule lo k q stops fix₂) (hne : fix₂ ≠ []) :
    Rule lo k (do if ← Parse.accept w then p else q) stops (t :: fix) := by
  have hmend := hp.mends.accept (q := q) ht hw
  have hread : ∀ c, lo ≤ c.depth → c.sees w = true → OneAhead (do advance; p) stops [t] c :=
    oneAhead_advance_of_sees hp.ahead
  rw [accept_eq_sees] at hmend ⊢
  exact rule_choice hp.room hread (fun c hlo _ => hq.ahead c hlo) (fun h => nomatch h)
    (fun hnil => absurd hnil hne) hmend

/-- The word or sign is consumed if it is there, but the step need not start with it. -/
theorem Rule.skip (hq : Rule lo k q stops fix)
    (hp : ∀ c, lo ≤ c.depth → OneAhead p stops fix₂ c)
    (hnext : ∀ rest : List Token, stops rest.head? → Avoids [w] (fix ++ rest).head?) :
    Rule lo k (do if ← Parse.accept w then p else q) stops fix := by
  rw [accept_eq_sees]
  exact hq.sees_not (oneAhead_advance_of_sees hp) (List.cons_ne_nil default []) hnext

/-- Without the word or sign there is an error. -/
theorem Rule.orFail (fault : ParseFault) (hp : Rule lo k p stops fix) (ht : t.WellFormed)
    (hw : t.spells w = true) :
    Rule lo k (do if ← Parse.accept w then p else fail fault) stops (t :: fix) := by
  have hmend := hp.mends.accept (q := fail fault) ht hw
  have hmend_one := hmend.imp (Nat.le_refl _) hp.room fun _ h => h
  refine ⟨hp.room, fun c hlo => ?_, hmend⟩
  rw [accept_eq_sees] at hmend_one ⊢
  cases hsees : c.sees w with
  | true =>
    have hread : OneAhead (do advance; p) stops [t] c :=
      oneAhead_advance_of_sees hp.ahead c hlo hsees
    refine hread.look hlo ?_ (fun h => nomatch h) hmend_one
    intro c' _ hhead
    exact sees_of_sees ((sees_congr hhead w).trans hsees)
  | false =>
    -- Another token is the fault itself, and the word is what mends it.
    refine oneAhead_fails fault hlo ?_ hmend_one
    intro c' _ hhead
    exact sees_of_not_sees ((sees_congr hhead w).trans hsees)

/-- A word or sign, which the token `t` spells. -/
theorem rule_expect (hk : k ≤ 1) (ht : t.WellFormed) (hw : t.spells w = true) :
    Rule lo k (expect w) stops [t] :=
  (rule_pure hk ()).orFail (.expected w) ht hw

/-- A name, which the token `t` is. -/
theorem rule_identifier (hk : k ≤ 1) (ht : t.WellFormed) (hkind : t.kind = .identifier) :
    Rule lo k identifier stops [t] := by
  have hname : ∀ {c : Cursor} {t : Token}, c.rest.head? = some t → t.kind = .identifier →
      identifier c = (advance >>= fun _ => pure t.lexeme : Parse String) c := by
    intro c t hhead hkind
    simp [identifier, peek, bind, EStateM.bind, hhead, hkind]
  -- Any name mends a missing one.
  have hmend : ∀ {k}, Mends lo k identifier stops [t] := by
    intro k
    apply ((mends_pure t.lexeme).advance ht).look
    intro c rest hrest _
    exact hname (by rw [hrest]; rfl) hkind
  refine ⟨hk, fun c hlo => ?_, hmend⟩
  -- Whether a name stands next is seen from the next token.
  by_cases hnext : ∃ u, c.rest.head? = some u ∧ u.kind = .identifier
  · obtain ⟨u, hhead, hu⟩ := hnext
    obtain ⟨rest, hrest⟩ := List.head?_eq_some_iff.mp hhead
    have hread : OneAhead (advance >>= fun _ => pure u.lexeme) stops [u] c :=
      oneAhead_advance hrest (oneAhead_pure u.lexeme)
    refine hread.look hlo ?_ (fun h => nomatch h) hmend
    intro c' _ hhead'
    exact hname (hhead'.trans hhead) hu
  · refine oneAhead_fails .expectedIdentifier hlo ?_ hmend
    intro c' _ hhead
    rw [← hhead] at hnext
    simp only [identifier, peek, bind, EStateM.bind]
    cases hc' : c'.rest.head? with
    | none => rfl
    | some u =>
      have hu : u.kind ≠ .identifier := fun hu => hnext ⟨u, hc', hu⟩
      simp [hu]

end Choices

end Rules

/-! ## Rounds -/

/-- Steps are taken until one of them has a result, but no more than the given number. -/
def rounds (step : σ → Parse (σ ⊕ β)) (last : σ → Parse β) : Nat → σ → Parse β
  | 0, s => last s
  | n + 1, s => step s >>= Sum.elim (rounds step last n) pure

/-- As many rounds as there are tokens left, and some to spare. -/
def roundsToEnd (step : σ → Parse (σ ⊕ β)) (last : σ → Parse β) (spare : Nat) (s : σ) : Parse β :=
  remaining >>= fun n => rounds step last (n + spare) s

section Rounds

variable {step : σ → Parse (σ ⊕ β)} {last : σ → Parse β} {lo k : Nat}
  {stops : Option Token → Prop}

/-- A step that asks for another round has read something. -/
def Progresses (lo : Nat) (step : σ → Parse (σ ⊕ β)) : Prop :=
  ∀ s c s' d, lo ≤ c.depth → step s c = .ok (.inl s') d →
    d.rest.length < c.rest.length ∧ lo ≤ d.depth

/-- If no token is left, it makes no difference whether there is a round. -/
def EndsAlike (step : σ → Parse (σ ⊕ β)) (last : σ → Parse β) : Prop :=
  ∀ s (more : σ → Parse β) (c : Cursor), c.rest = [] →
    last s c = (step s >>= Sum.elim more pure) c

/-- More rounds than tokens change nothing. -/
private theorem rounds_eq (hprogress : Progresses lo step) (hlast : EndsAlike step last)
    (spare n : Nat) (c : Cursor) (s : σ) (hlo : lo ≤ c.depth) (hn : c.rest.length ≤ n) :
    rounds step last n s c = (step s >>= Sum.elim (roundsToEnd step last spare) pure) c := by
  -- Induction on the number of tokens that are left.
  generalize hlength : c.rest.length = m
  induction m using Nat.strongRecOn generalizing n c s with
  | ind m ih =>
    cases n with
    | zero => exact hlast s _ c (List.length_eq_zero_iff.mp (by omega))
    | succ n =>
      show (step s >>= Sum.elim (rounds step last n) pure) c = _
      cases hstep : step s c with
      | error e d => rw [bind_of_error hstep, bind_of_error hstep]
      | ok r d =>
        rw [bind_of_ok hstep, bind_of_ok hstep]
        cases r with
        | inr b => rfl
        | inl s' =>
          obtain ⟨hlt, hd⟩ := hprogress s c s' d hlo hstep
          have hcount := d.count_eq
          show rounds step last n s' d = rounds step last (d.count + spare) s' d
          rw [ih d.rest.length (by omega) n d s' hd (by omega) rfl,
            ih d.rest.length (by omega) (d.count + spare) d s' hd (by omega) rfl]

/-- With a round to spare for every token, a loop takes one round and goes on. -/
private theorem roundsToEnd_eq (hprogress : Progresses lo step) (hlast : EndsAlike step last)
    {spare : Nat} {c : Cursor} (hlo : lo ≤ c.depth) (s : σ) :
    roundsToEnd step last spare s c =
      (step s >>= Sum.elim (roundsToEnd step last spare) pure) c := by
  have hcount := c.count_eq
  exact rounds_eq hprogress hlast spare (c.count + spare) c s hlo (by omega)

/-- Where what is read has ended, the first step has the result. -/
private theorem Mends.roundsToEnd (hprogress : Progresses lo step) (hlast : EndsAlike step last)
    (h : ∀ s, Mends lo k (step s) stops []) (spare : Nat) (s : σ) :
    Mends lo k (roundsToEnd step last spare s) stops [] where
  wellFormed := fun _ h => nomatch h
  run := by
    intro c rest hlo hroom hrest hstop
    rw [roundsToEnd_eq hprogress hlast hlo]
    obtain ⟨r, d, hstep, hend, hdepth⟩ := (h s).run c rest hlo hroom hrest hstop
    cases r with
    | inr b => exact ⟨b, d, bind_of_ok hstep, hend, hdepth⟩
    -- Another round would have taken a token, and the completion is empty.
    | inl s' =>
      have hlt := (hprogress s c s' d hlo hstep).1
      rw [hend, hrest] at hlt
      exact absurd hlt (Nat.lt_irrefl _)

/-- A loop is complete where its step may end, by induction on the tokens that are left. -/
private theorem Rule.roundsToEnd [Inhabited σ] (hprogress : Progresses lo step)
    (hlast : EndsAlike step last) (hstep : ∀ s, Rule lo k (step s) stops []) (spare : Nat) (s : σ) :
    Rule lo k (Parse.roundsToEnd step last spare s) stops [] := by
  have : Inhabited (σ ⊕ β) := ⟨.inl default⟩
  have hmend : ∀ s, Mends lo 1 (Parse.roundsToEnd step last spare s) stops [] :=
    Mends.roundsToEnd hprogress hlast (fun s => (hstep s).mends_one) spare
  refine ⟨(hstep s).room, fun c hlo => ?_,
    Mends.roundsToEnd hprogress hlast (fun s => (hstep s).mends) spare s⟩
  -- Every round reads a token, so the induction is on those that are left.
  generalize hlength : c.rest.length = n
  induction n using Nat.strongRecOn generalizing s c with
  | ind n ih =>
    have hbind : OneAhead (step s >>= Sum.elim (Parse.roundsToEnd step last spare) pure) stops []
        c := by
      refine ((hstep s).ahead c hlo).bind hlo ?_ ?_ (fun _ h => h)
      · intro r d hrun hd
        cases r with
        | inr b => exact oneAhead_pure b
        | inl s' =>
          obtain ⟨hlt, hd⟩ := hprogress s c s' d hlo hrun
          exact ih d.rest.length (by omega) s' d hd rfl
      · intro r
        cases r with
        | inr b => exact mends_pure b
        | inl s' => exact hmend s'
    apply hbind.congr
    intro c' hc
    exact roundsToEnd_eq hprogress hlast (by rw [hc.depth_eq]; exact hlo) s

end Rounds

/-- A round of a loop that looks at the next token and goes on if it finds what it looks for. -/
def turn {γ : Type} (again : Option Token → Option γ) (body : γ → σ → Parse σ)
    (result : σ → Parse β) (s : σ) : Parse (σ ⊕ β) := do
  match again (← peek) with
  | some x => .inl <$> body x s
  | none => .inr <$> result s

section Turns

variable {γ : Type} {again : Option Token → Option γ} {body : γ → σ → Parse σ}
  {result last : σ → Parse β} {lo k : Nat} {stops : Option Token → Prop}

/-- Where the loop goes on, a turn is one round. -/
private theorem turn_of_some {c : Cursor} {x : γ} (h : again c.rest.head? = some x) (s : σ) :
    turn again body result s c = (.inl <$> body x s : Parse (σ ⊕ β)) c := by
  simp only [turn, peek, bind, EStateM.bind, h]

/-- Where it does not, a turn gives the result. -/
private theorem turn_of_none {c : Cursor} (h : again c.rest.head? = none) (s : σ) :
    turn again body result s c = (.inr <$> result s : Parse (σ ⊕ β)) c := by
  simp only [turn, peek, bind, EStateM.bind, h]

private theorem map_of_ok {f : α → β} {p : Parse α} {a : α} {c d : Cursor} (h : p c = .ok a d) :
    (f <$> p) c = .ok (f a) d := by
  simp only [Functor.map, EStateM.map, h]

private theorem map_of_error {f : α → β} {p : Parse α} {e : ParseError} {c d : Cursor}
    (h : p c = .error e d) : (f <$> p) c = .error e d := by
  simp only [Functor.map, EStateM.map, h]

private theorem exists_of_map_eq_ok {f : α → β} {p : Parse α} {b : β} {c d : Cursor}
    (h : (f <$> p) c = .ok b d) : ∃ a, p c = .ok a d ∧ f a = b := by
  rw [map_eq_pure_bind] at h
  obtain ⟨a, d', hp, hpure⟩ := exists_of_bind_eq_ok h
  cases hpure
  exact ⟨a, hp, rfl⟩

/-- A loop that goes on takes its round first. -/
theorem turn_bind_of_some {c : Cursor} {x : γ} (h : again c.rest.head? = some x) (s : σ)
    (more : σ → Parse β) :
    (turn again body result s >>= Sum.elim more pure) c = (body x s >>= more) c := by
  cases hrun : body x s c with
  | ok s' d =>
    rw [bind_of_ok ((turn_of_some h s).trans (map_of_ok hrun)), bind_of_ok hrun]
    rfl
  | error e d =>
    rw [bind_of_error ((turn_of_some h s).trans (map_of_error hrun)), bind_of_error hrun]

/-- A loop that does not is done. -/
theorem turn_bind_of_none {c : Cursor} (h : again c.rest.head? = none) (s : σ)
    (more : σ → Parse β) :
    (turn again body result s >>= Sum.elim more pure) c = result s c := by
  cases hrun : result s c with
  | ok b d =>
    rw [bind_of_ok ((turn_of_none h s).trans (map_of_ok hrun))]
    rfl
  | error e d => rw [bind_of_error ((turn_of_none h s).trans (map_of_error hrun))]

/-- A loop whose rounds all read something. -/
theorem Rule.turns [Inhabited σ] [Inhabited β] (hnone : again none = none)
    (hlast : ∀ s c, c.rest = [] → last s c = result s c)
    (hbody : ∀ x s c, again c.rest.head? = some x → lo ≤ c.depth →
      ∃ fix, fix ≠ [] ∧ OneAhead (body x s) stops fix c)
    (hresult : ∀ s, Rule lo k (result s) stops [])
    (hstops : ∀ next, stops next → again next = none) (spare : Nat) (s : σ) :
    Rule lo k (Parse.roundsToEnd (turn again body result) last spare s) stops [] := by
  apply Rule.roundsToEnd
  · intro s c s' d hlo hrun
    cases hagain : again c.rest.head? with
    | some x =>
      -- The body accepts something, so it cannot have succeeded without reading.
      obtain ⟨fix, hne, hahead⟩ := hbody x s c hagain hlo
      rw [turn_of_some hagain] at hrun
      obtain ⟨_, hrun', _⟩ := exists_of_map_eq_ok hrun
      obtain ⟨pre, hmoves, hfix⟩ := hahead.moves hrun'
      have hpre : pre ≠ [] := fun h => hne (hfix h)
      have hpos := List.length_pos_iff.mpr hpre
      have hlength := hmoves.length_eq
      exact ⟨by omega, Nat.le_trans hlo hmoves.depth_le⟩
    | none =>
      rw [turn_of_none hagain] at hrun
      obtain ⟨_, _, heq⟩ := exists_of_map_eq_ok hrun
      exact nomatch heq
  · intro s more c hrest
    have hagain : again c.rest.head? = none := by
      rw [hrest]
      exact hnone
    rw [hlast s c hrest, turn_bind_of_none hagain]
  · intro s
    have hmend : Mends lo k (turn again body result s) stops [] := by
      apply ((hresult s).map .inr).mends.look
      intro c rest hrest hstop
      exact turn_of_none (hstops _ (by rw [hrest]; exact hstop)) s
    refine ⟨(hresult s).room, fun c hlo => ?_, hmend⟩
    have hmend_one := hmend.imp (Nat.le_refl _) (hresult s).room fun _ h => h
    cases hagain : again c.rest.head? with
    | some x =>
      obtain ⟨fix, hne, hahead⟩ := hbody x s c hagain hlo
      refine (hahead.map .inl).look hlo ?_ (fun h => absurd h hne) hmend_one
      intro c' _ hhead
      exact turn_of_some (by rw [hhead, hagain]) s
    | none =>
      refine (((hresult s).ahead c hlo).map .inr).look hlo ?_ ?_ hmend_one
      · intro c' _ hhead
        exact turn_of_none (by rw [hhead, hagain]) s
      · intro _
        exact ⟨rfl, fun c' _ hstop => turn_of_none (hstops _ hstop) s⟩

section Seen

variable {w : String} {more : σ → Parse σ} {loop : Nat → σ → Parse β}

/-- A loop that goes on at a word or sign takes such rounds. -/
theorem eq_rounds_of_sees (hzero : ∀ s, loop 0 s = result s)
    (hsucc : ∀ n s, loop (n + 1) s = do if ← Parse.sees w then more s >>= loop n else result s) :
    loop = rounds (turn (Option.filter (·.spells w)) (fun _ s => more s) result) result := by
  -- Round by round, both loops look for the word before they go on.
  funext n s
  induction n generalizing s with
  | zero => exact hzero s
  | succ n ih =>
    rw [hsucc]
    funext c
    show _ = (turn _ _ result s >>= Sum.elim (rounds _ result n) pure) c
    cases hsees : c.sees w with
    | true =>
      obtain ⟨t, rest, hrest, ht⟩ := exists_of_sees hsees
      rw [sees_of_sees hsees, turn_bind_of_some (x := t) (by rw [hrest]; simp [ht]), funext ih]
    | false =>
      rw [sees_of_not_sees hsees, turn_bind_of_none]
      rw [sees_eq_any] at hsees
      cases hhead : c.rest.head? <;> simp_all

/-- A loop that goes on behind a word or sign is one that goes on at it. -/
theorem loop_sees_of_accepts
    (hsucc : ∀ n s, loop (n + 1) s = do if ← Parse.accept w then more s >>= loop n else result s)
    (n : Nat) (s : σ) :
    loop (n + 1) s =
      (do if ← Parse.sees w then (do advance; more s) >>= loop n else result s) := by
  rw [hsucc, accept_eq_sees]
  simp only [bind_assoc]

/-- A loop that goes on at a word or sign. -/
theorem Rule.whileSeen [Inhabited σ] [Inhabited β] {fix : List Token}
    (hzero : ∀ s, loop 0 s = result s)
    (hsucc : ∀ n s, loop (n + 1) s = do if ← Parse.sees w then more s >>= loop n else result s)
    (hmore : ∀ s c, lo ≤ c.depth → c.sees w = true → OneAhead (more s) stops fix c)
    (hne : fix ≠ []) (hresult : ∀ s, Rule lo k (result s) stops [])
    (hstops : ∀ next, stops next → Avoids [w] next) (s : σ) :
    Rule lo k (remaining >>= fun n => loop n s) stops [] := by
  -- The loop that looks for its word is one that takes turns.
  rw [eq_rounds_of_sees hzero hsucc]
  refine Rule.turns rfl (fun _ _ _ => rfl) ?_ hresult ?_ 0 s
  · intro t s c hagain hlo
    obtain ⟨hhead, ht⟩ := Option.filter_eq_some_iff.mp hagain
    refine ⟨fix, hne, hmore s c hlo ?_⟩
    rw [sees_eq_any, hhead]
    exact ht
  · intro next hstop
    have havoids := hstops next hstop w (List.mem_singleton.mpr rfl)
    cases next <;> simp_all

/-- A loop that goes on behind a word or sign. -/
theorem Rule.whileAccepted [Inhabited σ] [Inhabited β] {fix : List Token}
    (hzero : ∀ s, loop 0 s = result s)
    (hsucc : ∀ n s, loop (n + 1) s = do if ← Parse.accept w then more s >>= loop n else result s)
    (hmore : ∀ s c, lo ≤ c.depth → OneAhead (more s) stops fix c)
    (hresult : ∀ s, Rule lo k (result s) stops [])
    (hstops : ∀ next, stops next → Avoids [w] next) (s : σ) :
    Rule lo k (remaining >>= fun n => loop n s) stops [] :=
  Rule.whileSeen hzero (loop_sees_of_accepts hsucc) (fun s => oneAhead_advance_of_sees (hmore s))
    (List.cons_ne_nil default []) hresult hstops s

end Seen

end Turns

end Parse

end LetLang
