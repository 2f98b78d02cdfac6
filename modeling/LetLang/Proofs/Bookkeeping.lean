import LetLang.Proofs.FirstFault
import LetLang.Proofs.Recursion
import LetLang.Proofs.Tracking

/-! # The parser keeps its books

A rule of the grammar that succeeds has consumed a token, unless it is a block, and is nested as
before.  One that fails stands somewhere between where it started and the end of the tokens, and
is nested somewhere between where it started and `maxNesting`.  So no loop of the parser can go on
for ever: each round consumes a token.

`LoopEnds` says how a loop ends whose number of rounds nobody has counted.

* `loopEnds_rounds`    as many rounds as there are tokens are enough
* `rules_keep_books`   all of this for every rule and every loop -/

namespace LetLang

namespace Parse

variable {α β γ σ : Type}

/-! ## Loops -/

/-- A loop goes on for as long as `again` finds something in the next token, with `body` as its
    rounds and `result` behind them.  Started with `s` at the cursor, it ends so. -/
inductive LoopEnds (again : Option Token → Option γ) (body : γ → σ → Parse σ)
    (result : σ → Parse β) : σ → Cursor → EStateM.Result ParseError Cursor β → Prop where
  | done {s : σ} {c : Cursor} : again c.rest.head? = none →
    LoopEnds again body result s c (result s c)
  | fails {x : γ} {s : σ} {c c' : Cursor} {e : ParseError} : again c.rest.head? = some x →
    body x s c = .error e c' → LoopEnds again body result s c (.error e c')
  | round {x : γ} {s s' : σ} {c c' : Cursor} {r : EStateM.Result ParseError Cursor β} :
    again c.rest.head? = some x → body x s c = .ok s' c' →
    LoopEnds again body result s' c' r → LoopEnds again body result s c r

/-- The step consumes a token if it succeeds, and the nesting stays within its limit. -/
def TakesToken (p : Parse α) (c : Cursor) : Prop :=
  Ends p c (fun _ c' => c'.rest.length < c.rest.length ∧ c'.depth ≤ maxNesting) fun _ _ => True

section Loops

variable {again : Option Token → Option γ} {body : γ → σ → Parse σ} {result last : σ → Parse β}

/-- A loop whose rounds all consume a token has ended after as many rounds as there are tokens. -/
theorem loopEnds_rounds
    (hbody : ∀ x s c, c.depth ≤ maxNesting → again c.rest.head? = some x → TakesToken (body x s) c)
    (hnone : again none = none) (hlast : ∀ s c, c.rest = [] → last s c = result s c) {n : Nat}
    {s : σ} {c : Cursor} (hd : c.depth ≤ maxNesting) (hn : c.rest.length ≤ n) :
    LoopEnds again body result s c (rounds (turn again body result) last n s c) := by
  induction n generalizing s c with
  | zero =>
    have hrest : c.rest = [] := List.length_eq_zero_iff.mp (Nat.le_zero.mp hn)
    show LoopEnds again body result s c (last s c)
    rw [hlast s c hrest]
    exact .done (by rw [hrest]; exact hnone)
  | succ n ih =>
    show LoopEnds again body result s c
      ((turn again body result s >>= Sum.elim (rounds (turn again body result) last n) pure) c)
    cases hagain : again c.rest.head? with
    | none =>
      rw [turn_bind_of_none hagain]
      exact .done hagain
    | some x =>
      rw [turn_bind_of_some hagain]
      cases hrun : body x s c with
      | error e c' =>
        rw [bind_of_error hrun]
        exact .fails hagain hrun
      | ok s' c' =>
        -- The round has used up a token as well, so `n` rounds are enough for the rest.
        obtain ⟨hlt, hd'⟩ := (hbody x s c hd hagain).of_ok hrun
        rw [bind_of_ok hrun]
        exact .round hagain hrun (ih hd' (by omega))

end Loops

/-! ### Their rounds -/

section Rounds

variable {c : Cursor}

/-- Every cursor stands before the first of the tokens that are left. -/
private theorem TakesToken.of_tracks {p : Parse α}
    (h : Tracks c.rest p 0 c.depth fun _ j _ => 0 < j) (hd : c.depth ≤ maxNesting) :
    TakesToken p c := by
  refine (h c ⟨rfl, Nat.zero_le _⟩ rfl hd).imp ?_ fun _ _ _ _ => trivial
  rintro a c' - ⟨j, hj, hpos⟩
  have hle := hj.place.le
  rw [hj.place.rest_eq, List.length_drop]
  exact ⟨by omega, hj.depth_le⟩

/-- A step behind a token. -/
private theorem tracks_behind {tokens : List Token} {i d : Nat} {t : Token} {p : Parse α}
    (ht : tokens[i]? = some t) (h : Tracks tokens p (i + 1) d fun _ _ _ => True) :
    Tracks tokens (do advance; p) i d fun _ j _ => i < j :=
  tracks_advance ht fun c hc hd hmax => (h c hc hd hmax).mono
    fun _ _ _ ⟨j, hj, _⟩ => ⟨j, hj, hj.le⟩

/-- A link of an operator chain takes its operator and what follows. -/
private theorem takesToken_extend {operand : Parse Expr}
    (h : ∀ tokens, TracksExpression tokens operand)
    (hd : c.depth ≤ maxNesting) {level : Level} {operator : Operator}
    (hnext : operatorOf level c.rest.head? = some operator) (left : Expr) :
    TakesToken (extend operand operator left) c := by
  -- An operator can only be found in a token, which is then there to be consumed.
  have hspells := List.find?_some hnext
  obtain ⟨t, ht, _⟩ := (Option.any_eq_true _ _).mp hspells
  rw [List.head?_eq_getElem?] at ht
  refine TakesToken.of_tracks (tracks_enter ?_) hd
  refine tracks_behind ht ((h _ 1 _).bind ?_)
  rintro right j _ _
  exact tracks_fresh fun id => tracks_pure trivial

/-- What follows a word or sign that is seen. -/
private theorem takesToken_behind {lexeme : String} {t : Token}
    (hnext : Option.filter (·.spells lexeme) c.rest.head? = some t) {p : Parse α}
    (h : Tracks c.rest p 1 c.depth fun _ _ _ => True) (hd : c.depth ≤ maxNesting) :
    TakesToken (do advance; p) c := by
  have ht := (Option.filter_eq_some_iff.mp hnext).1
  rw [List.head?_eq_getElem?] at ht
  exact .of_tracks (tracks_behind ht h) hd

end Rounds

/-! ### The loops of the parser -/

section

variable {c : Cursor} (hd : c.depth ≤ maxNesting)

include hd

/-- A chain of operators ends at the first token that is no operator of its level. -/
private theorem loopEnds_chain {operand : Parse Expr}
    (h : ∀ tokens, TracksExpression tokens operand) (level : Level) (left : Expr) :
    LoopEnds (operatorOf level) (extend operand) pure left c
      (chain level operand c.count left c) := by
  rw [chain_eq]
  refine loopEnds_rounds (fun operator left c hd hnext => takesToken_extend h hd hnext left) ?_
    (fun _ _ _ => rfl) hd (Nat.le_of_eq c.count_eq.symm)
  exact operatorOf_eq_none fun _ _ => rfl

/-- A chain of members ends where no dot follows. -/
private theorem loopEnds_links (receiver : Expr) :
    LoopEnds (Option.filter (·.spells "."))
      (fun _ receiver => do advance; enter; link expression receiver) pure receiver c
      (links expression c.count receiver c) := by
  rw [eq_rounds_of_sees (fun _ => rfl) (loop_sees_of_accepts links_succ)]
  refine loopEnds_rounds (fun t receiver c hd hnext => takesToken_behind hnext ?_ hd) rfl
    (fun _ _ _ => rfl) hd (Nat.le_of_eq c.count_eq.symm)
  refine tracks_enter (tracks_identifier fun name _ => tracks_choice (fun hopen => ?_) ?_)
  · exact (tracks_arguments tracks_expression hopen).bind fun items _ _ _ =>
      tracks_fresh fun id => tracks_pure trivial
  · exact tracks_fresh fun id => tracks_pure trivial

/-- A list ends where no comma follows. -/
private theorem loopEnds_commaRounds (done : List Expr) :
    LoopEnds (Option.filter (·.spells ","))
      (fun _ done => do advance; let e ← expression; pure (e :: done))
      (fun done => pure done.reverse) done c (commaRounds expression c.count done c) := by
  rw [eq_rounds_of_sees (fun _ => rfl) (loop_sees_of_accepts (commaRounds_succ expression))]
  refine loopEnds_rounds (fun t done c hd hnext => takesToken_behind hnext ?_ hd) rfl
    (fun _ _ _ => rfl) hd (Nat.le_of_eq c.count_eq.symm)
  exact (tracks_expression 1 c.depth).bind fun e _ _ _ => tracks_pure trivial

/-- A block ends at one of its closing words. -/
private theorem loopEnds_statements (first : String) (others : List String)
    (done : List Statement) :
    LoopEnds (statementStart (first :: others)) (fun _ done => (· :: done) <$> statement block)
      (blockEnd first others) done c
      (statements (statement block) first others (c.count + 1) done c) := by
  rw [statements_eq]
  refine loopEnds_rounds (fun t done c hd hnext => ?_) ?_ ?_ hd ?_
  · refine TakesToken.of_tracks (Tracks.map ((tracks_statement tracks_block 0 c.depth).imp ?_)) hd
    -- A statement takes at least one token.
    rintro s j _ ⟨_, ps, hs⟩
    exact hs.lt
  · exact ite_self none
  · -- At the end of the tokens the block is missing its last word.
    intro done c hrest
    refine (blockEnd_of_not_sees ?_ done).symm
    rw [hrest]
    exact fun ⟨_, _, hspells⟩ => nomatch hspells
  · rw [c.count_eq]
    exact Nat.le_succ _

end

/-! ## Rules -/

/-- How a rule leaves the parser that starts at the cursor, before the token `i`.  If it succeeds,
    it has consumed a token and is nested as before; if it fails, no token is given back, and the
    nesting is neither less than before nor over the limit. -/
def KeepsBooks (tokens : List Token) (p : Parse α) (i : Nat) (c : Cursor) : Prop :=
  Ends p c (fun _ c' => ∃ j, c'.At tokens j ∧ i < j ∧ c'.depth = c.depth)
    (fun _ c' => ∃ j, c'.Reached tokens i c.depth j)

section

variable {tokens : List Token} {i : Nat} {c : Cursor} (hc : c.At tokens i)
  (hd : c.depth ≤ maxNesting)

include hc hd

/-- A rule that tracks its item keeps the books, since items are not empty. -/
private theorem TracksItem.keepsBooks {p : Parse α} {P : Standing α} (h : TracksItem tokens p P)
    (hP : ∀ {a i j ps}, P a i j ps → i < j) : KeepsBooks tokens p i c := by
  refine (h i c.depth c hc rfl hd).mono ?_
  rintro a c' - ⟨j, hj, hdepth, ps, ha⟩
  exact ⟨j, hj.place, hP ha, hdepth⟩

/-- A rule that tracks an expression keeps the books, since expressions are not empty. -/
private theorem TracksExpression.keepsBooks {p : Parse Expr} (h : TracksExpression tokens p) :
    KeepsBooks tokens p i c :=
  TracksItem.keepsBooks hc hd h Expr.Stands.lt

end

/-- The operands of a level are themselves a rule for an expression. -/
private theorem tracks_operandOf (tokens : List Token) (level : Level) :
    TracksExpression tokens (operandOf level) := by
  have hsecondary : TracksExpression tokens (secondary expression) :=
    tracks_secondary tracks_expression
  have hmultiplicative := tracks_binaryLevel .multiplicative hsecondary
  have hadditive := tracks_binaryLevel .additive hmultiplicative
  cases level with
  | logical => exact tracks_binaryLevel .comparison hadditive
  | comparison => exact hadditive
  | additive => exact hmultiplicative
  | multiplicative => exact hsecondary

/-- Every rule of the grammar keeps its books, wherever it starts, and every loop ends.  A block
    may succeed without consuming anything, but only before a word that ends it.  The rules are
    those that enter each other in turn, as `expression` and `block` show. -/
theorem rules_keep_books {tokens : List Token} {i : Nat} {c : Cursor} (hc : c.At tokens i)
    (hd : c.depth ≤ maxNesting) :
    (expression = restoringDepth (do enter; binaryLevel .logical (operandOf .logical)) ∧
      ∀ first others, block first others = (restoringDepth do
        enter
        statements (statement block) first others ((← remaining) + 1) [])) ∧
    (KeepsBooks tokens declaration i c ∧ KeepsBooks tokens method i c ∧
      KeepsBooks tokens (statement block) i c ∧ KeepsBooks tokens expression i c ∧
      (∀ level, KeepsBooks tokens (binaryLevel level (operandOf level)) i c) ∧
      KeepsBooks tokens (secondary expression) i c ∧
      KeepsBooks tokens (primary expression) i c) ∧
    (∀ first others, Ends (block first others) c
      (fun _ c' => ∃ j, c'.At tokens j ∧ i ≤ j ∧ c'.depth = c.depth ∧
        ∃ w ∈ first :: others, c'.sees w = true)
      (fun _ c' => ∃ j, c'.Reached tokens i c.depth j)) ∧
    (∀ level left, LoopEnds (operatorOf level) (extend (operandOf level)) pure left c
      (chain level (operandOf level) c.count left c)) ∧
    (∀ receiver, LoopEnds (Option.filter (·.spells "."))
      (fun _ receiver => do advance; enter; link expression receiver) pure receiver c
      (links expression c.count receiver c)) ∧
    (∀ done, LoopEnds (Option.filter (·.spells ","))
      (fun _ done => do advance; let e ← expression; pure (e :: done))
      (fun done => pure done.reverse) done c (commaRounds expression c.count done c)) ∧
    ∀ first others done, LoopEnds (statementStart (first :: others))
      (fun _ done => (· :: done) <$> statement block) (blockEnd first others) done c
      (statements (statement block) first others (c.count + 1) done c) := by
  -- The equations hold by the definition of the parser; each loop has its own lemma.
  refine ⟨⟨expression_eq, block_eq⟩, ?_, ?_, ?_, loopEnds_links hd, loopEnds_commaRounds hd,
    loopEnds_statements hd⟩
  -- Every rule of the grammar tracks what it reads.
  · refine ⟨TracksItem.keepsBooks hc hd tracks_declaration Declaration.Stands.lt,
      TracksItem.keepsBooks hc hd tracks_method Method.Stands.lt,
      TracksItem.keepsBooks hc hd (tracks_statement tracks_block) Statement.Stands.lt,
      TracksExpression.keepsBooks hc hd tracks_expression, fun level => ?_,
      TracksExpression.keepsBooks hc hd (tracks_secondary tracks_expression),
      TracksExpression.keepsBooks hc hd (tracks_primary tracks_expression)⟩
    exact TracksExpression.keepsBooks hc hd
      (tracks_binaryLevel level (tracks_operandOf tokens level))
  -- A block may be empty, so it need not take a token.
  · intro first others
    refine (tracks_block first others i c.depth c hc rfl hd).mono ?_
    rintro body c' - ⟨j, hj, hdepth, _, w, hw, hspells⟩
    exact ⟨j, hj.place, hj.le, hdepth, w, hw, hj.place.sees hspells⟩
  · intro level left
    exact loopEnds_chain hd (fun tokens => tracks_operandOf tokens level) level left

/-- The tokens of `((x`. -/
def openedTokens : List Token := [⟨.operator, "(", 0⟩, ⟨.operator, "(", 1⟩, ⟨.identifier, "x", 2⟩]

/-- Before them there is room for one more level. -/
def nearLimit : Cursor := { Cursor.start openedTokens with depth := 199 }

/-- The second parenthesis is one level too many, and the parser stays behind the first one. -/
theorem nearLimit_keeps_books :
    nearLimit.At openedTokens 0 ∧ nearLimit.depth ≤ maxNesting ∧
      KeepsBooks openedTokens expression 0 nearLimit ∧
      ∃ d, expression nearLimit = .error ⟨1, .tooDeep⟩ d ∧ ∃ j, d.Reached openedTokens 0 199 j := by
  have hat : nearLimit.At openedTokens 0 := ⟨rfl, Nat.zero_le _⟩
  have hdepth : nearLimit.depth ≤ maxNesting := by decide
  obtain ⟨_, ⟨_, _, _, hexpression, _⟩, _⟩ := rules_keep_books hat hdepth
  have hrun : ∃ d, expression nearLimit = .error ⟨1, .tooDeep⟩ d := ⟨_, rfl⟩
  obtain ⟨d, hrun⟩ := hrun
  exact ⟨hat, hdepth, hexpression, d, hrun, hexpression.of_error hrun⟩

end Parse

end LetLang
