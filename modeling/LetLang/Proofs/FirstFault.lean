import LetLang.Proofs.Lookahead

/-!
# The first token that cannot be right

Every rule of the grammar looks one token ahead and can be mended where it fails, with a short list
of tokens of its own: `NIL` for an expression, `x` for a name, and the words and signs that are
still due.  So an error is reported at the first token with which no program goes on.

* `rule_expression`, `rule_blockWithin`, `rule_source`   what ends a rule, and what it accepts
* `parse_fails_at_first_fault`   what an error says about the tokens before it and behind it
-/

namespace LetLang

/-! ## What the mending is made of -/

/-- A word of the grammar, or a name. -/
def Token.word (w : String) : Token := ⟨.identifier, w, 0⟩

/-- A sign of the grammar. -/
def Token.sign (s : String) : Token := ⟨.operator, s, 0⟩

/-- The words that complete a text are tokens. -/
private theorem Token.wellFormed_word {w : String}
    (h : w ∈ ["NIL", "x", "LET", "DEF", "IN", "DO", "END"]) : (Token.word w).WellFormed := by
  simp only [List.mem_cons, List.not_mem_nil, or_false] at h
  obtain rfl | rfl | rfl | rfl | rfl | rfl | rfl := h <;>
    exact .identifier rfl (List.all_eq_true.mp rfl)

/-- The signs that complete a text are tokens. -/
private theorem Token.wellFormed_sign {s : String} (h : s ∈ ["(", ")", ";"]) :
    (Token.sign s).WellFormed := by
  simp only [List.mem_cons, List.not_mem_nil, or_false] at h
  obtain rfl | rfl | rfl := h <;> exact .operator rfl

/-- Who avoids more words avoids fewer. -/
theorem Avoids.mono {words words' : List String} {next : Option Token} (h : Avoids words next)
    (hsub : words' ⊆ words) : Avoids words' next :=
  fun w hw => h w (hsub hw)

private theorem avoids_some {words : List String} {t : Token} (h : words.all (!t.spells ·) = true) :
    Avoids words (some t) := by
  intro w hw
  have := List.all_eq_true.mp h w hw
  simpa using this

private theorem sees_some {words : List String} {t : Token} (h : words.any t.spells = true) :
    Sees words (some t) :=
  List.any_eq_true.mp h

/-- A token is spelled in one way only. -/
private theorem Sees.avoids {words words' : List String} {next : Option Token} (h : Sees words next)
    (hne : ∀ w ∈ words, w ∉ words') : Avoids words' next := by
  obtain ⟨w, hw, hspells⟩ := h
  intro w' hw'
  cases next with
  | none => rfl
  | some t =>
    simp only [Option.any_some, Token.spells, Bool.and_eq_true, beq_iff_eq] at hspells
    -- A token is one word only.
    have hww' : t.lexeme ≠ w' := by
      intro heq
      rw [hspells.2] at heq
      exact hne w hw (heq ▸ hw')
    simp [Token.spells, hww']

namespace Parse

open Cursor

variable {α : Type} {lo k : Nat} {stops : Option Token → Prop} {fix : List Token}

/-- A word that is expected completes the text itself. -/
private theorem rule_word {w : String} (h : w ∈ ["NIL", "x", "LET", "DEF", "IN", "DO", "END"]) :
    Rule lo 1 (expect w) stops [.word w] :=
  rule_expect (Nat.le_refl 1) (Token.wellFormed_word h) (by simp [Token.word, Token.spells])

/-- A sign that is expected completes the text itself. -/
private theorem rule_sign {s : String} (h : s ∈ ["(", ")", ";"]) :
    Rule lo 1 (expect s) stops [.sign s] :=
  rule_expect (Nat.le_refl 1) (Token.wellFormed_sign h) (by simp [Token.sign, Token.spells])

/-- Where a name is expected, any name will do. -/
private theorem rule_name : Rule lo 1 identifier stops [.word "x"] :=
  rule_identifier (Nat.le_refl 1) (Token.wellFormed_word (by simp)) rfl

/-! ## Lists -/

theorem commaRounds_succ (item : Parse α) (n : Nat) (done : List α) :
    commaRounds item (n + 1) done =
      (do if ← accept "," then (item >>= fun a => pure (a :: done)) >>= commaRounds item n
          else pure done.reverse) := by
  simp only [commaRounds, bind_assoc, pure_bind]

/-- A list is complete after an item, if no comma follows. -/
private theorem rule_commaList [Inhabited α] {item : Parse α} {words : List String}
    (h : Rule lo k item (Avoids words) fix) :
    Rule lo k (commaList item) (Avoids ("," :: words)) fix := by
  have hstops : ∀ next, Avoids ("," :: words) next → Avoids words next :=
    fun _ havoids => havoids.mono (List.subset_cons_self _ _)
  have hmore : ∀ done, Rule lo k (item >>= fun a => pure (a :: done)) (Avoids ("," :: words)) fix :=
    fun done => h.andThen (fun a => rule_pure h.room (a :: done)) hstops
  refine h.andThen (fun first => ?_) hstops
  refine Rule.whileAccepted (fun _ => rfl) (commaRounds_succ item) (fun done => (hmore done).ahead)
    (fun done => rule_pure h.room done.reverse) ?_ [first]
  intro next havoids
  exact havoids.mono (by simp)

/-- A repetition is complete where its word does not stand next. -/
private theorem rule_manyAt [Inhabited α] {item : Parse α} {w : String}
    (h : Rule lo k item (Avoids [w]) fix) (hne : fix ≠ []) :
    Rule lo k (manyAt w item) (Avoids [w]) [] := by
  have hsucc : ∀ n done, manyRounds w item (n + 1) done =
      (do if ← sees w then (item >>= fun a => pure (a :: done)) >>= manyRounds w item n
          else pure done.reverse) := by
    intro n done
    simp only [manyRounds, bind_assoc, pure_bind]
  have hmore : ∀ done, Rule lo k (item >>= fun a => pure (a :: done)) (Avoids [w]) fix :=
    fun done => h.andThen (fun a => rule_pure h.room (a :: done)) fun _ hstop => hstop
  exact Rule.whileSeen (fun _ => rfl) hsucc (fun done c hlo _ => (hmore done).ahead c hlo) hne
    (fun done => rule_pure h.room done.reverse) (fun _ hstop => hstop) []

/-! ## Expressions -/

/-- The words and signs with which an expression goes on. -/
def continues : List String :=
  ["AND", "OR", "<", "<=", ">", ">=", "==", "!=", "+", "-", "*", "/", ".", "("]

/-- The step reads an expression, up to a token with which none goes on. -/
def RuleExpression (lo : Nat) (expression : Parse Expr) : Prop :=
  Rule lo 1 expression (Avoids continues) [.word "NIL"]

section Expressions

variable {expression : Parse Expr}

/-- Arguments are completed by the closing parenthesis. -/
private theorem rule_arguments (h : RuleExpression lo expression) :
    Rule lo 1 (arguments expression) stops [.sign ")"] := by
  have hitems : Rule lo 1 (do let items ← commaList expression; expect ")"; pure items) stops
      [.word "NIL", .sign ")"] := by
    refine (rule_commaList h).bind (fun items => ?_) fun _ _ => avoids_some rfl
    exact (rule_sign (by simp)).andThen (fun _ => rule_pure (Nat.le_refl 1) items) fun _ h => h
  exact (rule_pure (Nat.le_refl 1) []).accept (Token.wellFormed_sign (by simp)) rfl hitems
    (List.cons_ne_nil _ _)

/-- A literal token is read whatever follows it. -/
private theorem primary_of_literal {c : Cursor} {t : Token} {value : Literal}
    (hhead : c.rest.head? = some t) (ht : Literal.ofToken? t = some value) :
    primary expression c = (do advance; return .literal (← fresh) value : Parse Expr) c := by
  simp only [primary, peek, bind, EStateM.bind, hhead, ht]

/-- Behind a name there may be arguments. -/
private theorem rule_named (h : RuleExpression lo expression) (name : String) :
    Rule lo 1
      (do if ← accept "(" then
            let items ← arguments expression
            return .call (← fresh) name items
          else return .var (← fresh) name : Parse Expr)
      (Avoids ["("]) [] := by
  have hcall : Rule lo 1
      (do let items ← arguments expression; return .call (← fresh) name items : Parse Expr)
      (Avoids ["("]) [.sign ")"] :=
    (rule_arguments h).andThen (fun _ => rule_fresh (Nat.le_refl _)) fun _ h => h
  exact (rule_fresh (Nat.le_refl _)).skip hcall.ahead fun _ h => h

/-- Behind an opening parenthesis. -/
private theorem rule_parenthesized (h : RuleExpression lo expression) :
    Rule lo 1
      (do let inner ← expression
          if ← accept ")" then return .group (← fresh) inner
          else fail .unterminatedParenthesis : Parse Expr)
      stops [.word "NIL", .sign ")"] := by
  refine h.bind (fun inner => ?_) fun _ _ => avoids_some rfl
  exact (rule_fresh (Nat.le_refl _)).orFail _ (Token.wellFormed_sign (by simp)) rfl

/-- Where an expression is expected, `NIL` will do. -/
private theorem rule_primary (h : RuleExpression lo expression) :
    Rule lo 0 (primary expression) (Avoids ["("]) [.word "NIL"] := by
  -- The shortest expression is a literal, so one token completes every text that lacks a primary.
  have hmend : ∀ {k}, k ≤ 1 → Mends lo k (primary expression) (Avoids ["("]) [.word "NIL"] := by
    intro k hk
    apply ((rule_fresh hk).mends.advance (Token.wellFormed_word (by simp))).look
    intro c rest hrest _
    exact primary_of_literal (by rw [hrest]; rfl) rfl
  refine ⟨Nat.zero_le _, fun c hlo => ?_, hmend (Nat.zero_le _)⟩
  -- A failure at the first token depends on that token only.
  have hfails : ∀ fault, (∀ c', c'.rest.head? = c.rest.head? →
      primary expression c' = fail fault c') →
      OneAhead (primary expression) (Avoids ["("]) [.word "NIL"] c :=
    fun fault hp => oneAhead_fails fault hlo (fun c' _ hhead => hp c' hhead) (hmend (Nat.le_refl _))
  cases hhead : c.rest.head? with
  | none =>
    apply hfails .expectedExpression
    intro c' hc'
    simp only [primary, peek, bind, EStateM.bind, hc', hhead]
  | some t =>
    -- What comes behind the first token is read by a rule of its own.
    have hreads : ∀ {q : Parse Expr} {fix : List Token}, Rule lo 1 q (Avoids ["("]) fix →
        (∀ c', c'.rest.head? = some t → primary expression c' = (do advance; q : Parse Expr) c') →
        OneAhead (primary expression) (Avoids ["("]) [.word "NIL"] c := by
      intro q fix hq hp
      obtain ⟨rest, hrest⟩ := List.head?_eq_some_iff.mp hhead
      have hahead : OneAhead (do advance; q) (Avoids ["("]) [t] c :=
        oneAhead_advance hrest (hq.ahead c.advance (by simpa))
      exact hahead.look hlo (fun c' _ hhead' => hp c' (hhead'.trans hhead))
        (fun h => absurd h (List.cons_ne_nil _ _)) (hmend (Nat.le_refl _))
    rw [hhead] at hfails
    cases hliteral : Literal.ofToken? t with
    | some value =>
      exact hreads (rule_fresh (Nat.le_refl _)) fun c' hc' => primary_of_literal hc' hliteral
    | none =>
      -- A word may be a call, a parenthesis opens an expression, and nothing else can start one.
      cases hkind : t.kind with
      | identifier =>
        apply hreads (rule_named h t.lexeme)
        intro c' hc'
        simp only [primary, peek, bind, EStateM.bind, hc', hliteral, hkind]
      | operator =>
        by_cases ht : t.lexeme = "("
        · apply hreads (rule_parenthesized h)
          intro c' hc'
          simp only [primary, peek, bind, EStateM.bind, hc', hliteral, hkind, if_pos ht]
        · apply hfails .expectedExpression
          intro c' hc'
          simp only [primary, peek, bind, EStateM.bind, hc', hliteral, hkind, if_neg ht]
      | _ =>
        apply hfails .invalidLiteral
        intro c' hc'
        simp only [primary, peek, bind, EStateM.bind, hc', hliteral, hkind]

/-- What comes behind a dot. -/
def link (expression : Parse Expr) (receiver : Expr) : Parse Expr := do
  let name ← identifier
  if ← accept "(" then
    let items ← arguments expression
    return .invoke (← fresh) receiver name items
  else return .field (← fresh) receiver name

/-- One link, and the rest of the chain. -/
theorem links_succ (n : Nat) (receiver : Expr) :
    links expression (n + 1) receiver =
      (do if ← accept "." then (do enter; link expression receiver) >>= links expression n
          else pure receiver) := by
  have hite : ∀ (b : Bool) (p q : Parse Expr) (f : Expr → Parse Expr),
      (if b = true then p else q) >>= f = if b = true then p >>= f else q >>= f := by
    intro b p q f
    cases b <;> rfl
  simp only [links, link, bind_assoc, hite, pure_bind]

/-- Behind a dot stands a name. -/
private theorem rule_link (h : RuleExpression lo expression) (receiver : Expr) :
    Rule lo 1 (link expression receiver) (Avoids [".", "("]) [.word "x"] := by
  refine rule_name.andThen (fun name => ?_) fun _ h => h
  have hcall : Rule lo 1
      (do let items ← arguments expression; return .invoke (← fresh) receiver name items :
        Parse Expr)
      (Avoids [".", "("]) [.sign ")"] :=
    (rule_arguments h).andThen (fun _ => rule_fresh (Nat.le_refl _)) fun _ h => h
  exact (rule_fresh (Nat.le_refl _)).skip hcall.ahead fun _ h => h.mono (by simp)

/-- A chain is complete where neither a dot nor a parenthesis follows. -/
private theorem rule_links (h : RuleExpression lo expression) (receiver : Expr) :
    Rule lo 0 (do links expression (← remaining) receiver) (Avoids [".", "("]) [] := by
  -- The level that a dot goes deeper is left at the end of the chain only.
  have hmore : ∀ receiver c, lo ≤ c.depth →
      OneAhead (do enter; link expression receiver) (Avoids [".", "("]) [.word "x"] c :=
    fun receiver c hlo => oneAhead_enter ((rule_link h receiver).ahead _ (Nat.le_succ_of_le hlo))
  exact Rule.whileAccepted (fun _ => rfl) links_succ hmore
    (fun receiver => rule_pure (Nat.zero_le _) receiver) (fun _ h => h.mono (by simp)) receiver

/-- A primary expression with its links. -/
private theorem rule_secondary (h : RuleExpression lo expression) :
    Rule lo 0 (secondary expression) (Avoids [".", "("]) [.word "NIL"] :=
  ((rule_primary h).andThen (rule_links h) fun _ h => h.mono (by simp)).restoringDepth

end Expressions

section Chains

variable {operand : Parse Expr} {words : List String}

/-- The operator of the level that the next token is. -/
def operatorOf (level : Level) (next : Option Token) : Option Operator :=
  level.operators.find? fun o => next.any (·.spells o.symbol)

/-- A token that is none of the operators of a level ends its chain. -/
theorem operatorOf_eq_none {level : Level} {next : Option Token}
    (h : Avoids (level.operators.map Operator.symbol) next) : operatorOf level next = none := by
  apply List.find?_eq_none.mpr
  intro o ho
  rw [h o.symbol (List.mem_map_of_mem ho)]
  exact Bool.false_ne_true

/-- An operator and the operand behind it. -/
def extend (operand : Parse Expr) (operator : Operator) (left : Expr) : Parse Expr := do
  enter
  advance
  let right ← operand
  return .binary (← fresh) operator left right

/-- A chain of operators is a loop that looks for the next operator. -/
theorem chain_eq (level : Level) (operand : Parse Expr) :
    chain level operand = rounds (turn (operatorOf level) (extend operand) pure) pure := by
  funext n left
  induction n generalizing left with
  | zero => rfl
  | succ n ih =>
    funext c
    -- The operator is decided by the next token.
    have hoperator : operatorAt level c = .ok (operatorOf level c.rest.head?) c := by
      simp only [operatorAt, operatorOf, sees_eq_any]
    show (operatorAt level >>= _) c = (turn _ _ pure left >>= Sum.elim (rounds _ pure n) pure) c
    rw [bind_of_ok hoperator]
    cases hnext : operatorOf level c.rest.head? with
    | none => rw [turn_bind_of_none hnext]
    | some operator =>
      rw [turn_bind_of_some hnext, ← funext ih]
      simp only [extend, bind_assoc, pure_bind]

/-- The operators of the level itself must not follow either. -/
private theorem rule_chain (level : Level) (h : Rule lo k operand (Avoids words) [.word "NIL"])
    (left : Expr) :
    Rule lo k (do chain level operand (← remaining) left)
      (Avoids (level.operators.map Operator.symbol ++ words)) [] := by
  rw [chain_eq]
  -- Every round reads an operand and makes a node.
  have hright : ∀ operator left, Rule lo k
      (do let right ← operand; return .binary (← fresh) operator left right : Parse Expr)
      (Avoids (level.operators.map Operator.symbol ++ words)) [.word "NIL"] :=
    fun operator left => h.andThen (fun _ => rule_fresh h.room) fun _ h => h.mono (by simp)
  refine Rule.turns ?_ (fun _ _ _ => rfl) ?_ (rule_pure h.room) ?_ 0 left
  · exact operatorOf_eq_none fun _ _ => rfl
  · -- There is an operator, so there is a token to consume.
    intro operator left c hnext hlo
    have hspells := List.find?_some hnext
    obtain ⟨t, hhead, _⟩ := (Option.any_eq_true _ _).mp hspells
    obtain ⟨rest, hrest⟩ := List.head?_eq_some_iff.mp hhead
    refine ⟨[t], List.cons_ne_nil _ _, ?_⟩
    apply oneAhead_enter
    exact oneAhead_advance hrest ((hright operator left).ahead _ (by simp; omega))
  · exact fun next h => operatorOf_eq_none (h.mono (by simp))

/-- An operand and the chain behind it. -/
private theorem rule_binaryLevel (level : Level)
    (h : Rule lo k operand (Avoids words) [.word "NIL"]) :
    Rule lo k (binaryLevel level operand) (Avoids (level.operators.map Operator.symbol ++ words))
      [.word "NIL"] :=
  (h.andThen (rule_chain level h) fun _ h => h.mono (by simp)).restoringDepth

end Chains

/-- Expressions within any depth, by induction on the depth that is left. -/
private theorem rule_expressionWithin (n : Nat) (hn : maxNesting < n + lo) :
    RuleExpression lo (expressionWithin n) := by
  induction n generalizing lo with
  | zero =>
    -- Whoever is here has been told that the nesting is too deep.
    apply rule_tooDeep (by omega)
    simpa using Token.wellFormed_word (by simp)
  | succ n ih =>
    have hinner := rule_secondary (ih (by omega : maxNesting < n + (lo + 1)))
    exact (rule_binaryLevel .logical (rule_binaryLevel .comparison (rule_binaryLevel .additive
      (rule_binaryLevel .multiplicative hinner)))).restoringDepth_enter

theorem rule_expression : RuleExpression lo expression :=
  rule_expressionWithin (maxNesting + 1) (by omega)

/-! ## Statements -/

private theorem rule_annotation : Rule lo 1 annotation (Avoids [":"]) [] := by
  have hname : Rule lo 1 (do let name ← identifier; pure (some name)) (Avoids [":"]) [.word "x"] :=
    rule_name.andThen (fun name => rule_pure (Nat.le_refl _) (some name)) fun _ h => h
  exact (rule_pure (Nat.le_refl _) none).skip hname.ahead fun _ h => h

private theorem rule_initialValue : Rule lo 1 initialValue (Avoids ("=" :: continues)) [] := by
  have hvalue : Rule lo 1 (some <$> expression) (Avoids ("=" :: continues)) [.word "NIL"] :=
    (rule_expression.map some).imp (Nat.le_refl _) fun _ h => h.mono (List.subset_cons_self _ _)
  exact (rule_pure (Nat.le_refl _) none).skip hvalue.ahead fun _ h => h.mono (by simp)

/-- A declaration needs neither annotation nor value. -/
private theorem rule_declaration :
    Rule lo 1 declaration stops [.word "LET", .word "x", .sign ";"] := by
  refine (rule_word (by simp)).before fun _ => ?_
  refine rule_name.before fun name => ?_
  refine rule_annotation.bind (fun typeName => ?_) fun _ _ => avoids_some rfl
  refine rule_initialValue.bind (fun initializer => ?_) fun _ _ => avoids_some rfl
  exact (rule_sign (by simp)).before fun _ => rule_fresh (Nat.le_refl _)

/-- The reader stops at the words that it is given, and reads nothing if it is there already. -/
def RuleBlock (lo : Nat) (block : BlockReader) : Prop :=
  ∀ first others, Rule lo 1 (block first others) (Sees (first :: others)) []

section Statements

variable {block : BlockReader}

/-- A body between `DO` and `END`. -/
private theorem rule_body {f : List Statement → Parse α} (h : RuleBlock lo block)
    (hf : ∀ body, Rule lo 1 (f body) stops []) :
    Rule lo 1 (do expect "DO"; let body ← block "END" []; expect "END"; f body) stops
      [.word "DO", .word "END"] := by
  refine (rule_word (by simp)).before fun _ => ?_
  refine (h "END" []).bind (fun body => ?_) fun _ _ => sees_some rfl
  exact (rule_word (by simp)).before fun _ => hf body

/-- A missing `ELSE` is complete. -/
private theorem rule_elseBlock (h : RuleBlock lo block) :
    Rule lo 1 (elseBlock block) (Sees ["END"]) [] :=
  (rule_pure (Nat.le_refl _) []).skip (h "END" []).ahead fun _ h => h.avoids (by simp)

private theorem rule_ifStatement (h : RuleBlock lo block) :
    Rule lo 1 (ifStatement block) stops [.word "NIL", .word "DO", .word "END"] := by
  refine rule_expression.bind (fun condition => ?_) fun _ _ => avoids_some rfl
  refine (rule_word (by simp)).before fun _ => ?_
  refine (h "ELSE" ["END"]).bind (fun thenBody => ?_) fun _ _ => sees_some rfl
  refine (rule_elseBlock h).bind (fun elseBody => ?_) fun _ _ => sees_some rfl
  exact (rule_word (by simp)).before fun _ => rule_pure (Nat.le_refl _) _

private theorem rule_forStatement (h : RuleBlock lo block) :
    Rule lo 1 (forStatement block) stops
      [.word "x", .word "IN", .word "NIL", .word "DO", .word "END"] := by
  refine rule_name.before fun name => ?_
  refine (rule_word (by simp)).before fun _ => ?_
  refine rule_expression.bind (fun iterable => ?_) fun _ _ => avoids_some rfl
  exact rule_body h fun _ => rule_pure (Nat.le_refl _) _

private theorem rule_whileStatement (h : RuleBlock lo block) :
    Rule lo 1 (whileStatement block) stops [.word "NIL", .word "DO", .word "END"] := by
  refine rule_expression.bind (fun condition => ?_) fun _ _ => avoids_some rfl
  exact rule_body h fun _ => rule_pure (Nat.le_refl _) _

/-- An expression and the semicolon behind it. -/
private theorem rule_terminated {f : Expr → Statement} :
    Rule lo 1 (do let value ← expression; expect ";"; return f value) stops
      [.word "NIL", .sign ";"] := by
  refine rule_expression.bind (fun value => ?_) fun _ _ => avoids_some rfl
  exact (rule_sign (by simp)).before fun _ => rule_pure (Nat.le_refl _) _

private theorem rule_plainStatement : Rule lo 1 plainStatement stops [.word "NIL", .sign ";"] := by
  refine rule_expression.bind (fun first => ?_) fun _ _ => avoids_some rfl
  have hend : Rule lo 1 (do expect ";"; return .expression first : Parse Statement) stops
      [.sign ";"] :=
    (rule_sign (by simp)).before fun _ => rule_pure (Nat.le_refl _) _
  exact hend.skip rule_terminated.ahead fun _ _ => avoids_some rfl

/-- The shortest statement is the expression `NIL`. -/
private theorem rule_statement (h : RuleBlock lo block) :
    Rule lo 1 (statement block) stops [.word "NIL", .sign ";"] := by
  refine Rule.sees_not ?_ (fun c hlo _ => (rule_declaration.map Statement.declare).ahead c hlo)
    (List.cons_ne_nil _ _) fun _ _ => avoids_some rfl
  refine Rule.skip ?_ (rule_ifStatement h).ahead fun _ _ => avoids_some rfl
  refine Rule.skip ?_ (rule_forStatement h).ahead fun _ _ => avoids_some rfl
  refine Rule.skip ?_ (rule_whileStatement h).ahead fun _ _ => avoids_some rfl
  exact rule_plainStatement.skip rule_terminated.ahead fun _ _ => avoids_some rfl

end Statements

/-! ### Blocks -/

section Blocks

variable {first : String} {others : List String}

/-- The end of a block, which has to be there if no statement is. -/
def blockEnd (first : String) (others : List String) (done : List Statement) :
    Parse (List Statement) := do
  if ← seesAny (first :: others) then pure done.reverse else fail (.expected first)

/-- The next token, unless it ends a block. -/
def statementStart (words : List String) (next : Option Token) : Option Token :=
  if Sees words next then none else next

private theorem seesAny_eq (words : List String) (c : Cursor) :
    seesAny words c = .ok (decide (Sees words c.rest.head?)) c := by
  unfold seesAny
  congr 1
  rw [Bool.eq_iff_iff, List.any_eq_true, decide_eq_true_eq]
  simp only [sees_eq_any, Sees]

/-- A block ends at one of its closing words. -/
private theorem blockEnd_of_sees {c : Cursor} (h : Sees (first :: others) c.rest.head?)
    (done : List Statement) :
    blockEnd first others done c = (pure done.reverse : Parse (List Statement)) c := by
  unfold blockEnd
  rw [bind_of_ok (seesAny_eq _ c)]
  simp [h]

/-- Elsewhere the first of them is missing. -/
theorem blockEnd_of_not_sees {c : Cursor} (h : ¬Sees (first :: others) c.rest.head?)
    (done : List Statement) :
    blockEnd first others done c = (fail (.expected first) : Parse (List Statement)) c := by
  unfold blockEnd
  rw [bind_of_ok (seesAny_eq _ c)]
  simp [h]

private theorem statementStart_of_sees {words : List String} {next : Option Token}
    (h : Sees words next) :
    statementStart words next = none :=
  if_pos h

private theorem statementStart_of_not_sees {words : List String} {next : Option Token}
    (h : ¬Sees words next) : statementStart words next = next :=
  if_neg h

private theorem rule_blockEnd (hk : k ≤ 1) (done : List Statement) :
    Rule lo k (blockEnd first others done) (Sees (first :: others)) [] := by
  -- What is missing is a closing word, which the rule itself does not read.
  have hmend : ∀ {k}, Mends lo k (blockEnd first others done) (Sees (first :: others)) [] := by
    intro k
    apply (mends_pure done.reverse).look
    intro c rest hrest hstop
    exact blockEnd_of_sees (by rwa [hrest]) done
  refine ⟨hk, fun c hlo => ?_, hmend⟩
  by_cases hsees : Sees (first :: others) c.rest.head?
  · apply (oneAhead_pure done.reverse).look hlo _ _ hmend
    · intro c' _ hhead
      exact blockEnd_of_sees (by rwa [hhead]) done
    · exact fun _ => ⟨rfl, fun c' _ hstop => blockEnd_of_sees hstop done⟩
  · apply oneAhead_fails (.expected first) hlo _ hmend
    intro c' _ hhead
    exact blockEnd_of_not_sees (by rwa [hhead]) done

/-- The statements of a block are a loop that looks for the start of the next one. -/
theorem statements_eq (item : Parse Statement) (first : String) (others : List String) :
    statements item first others =
      rounds (turn (statementStart (first :: others)) (fun _ done => (· :: done) <$> item)
        (blockEnd first others)) fun _ => fail (.expected first) := by
  funext n done
  induction n generalizing done with
  | zero => rfl
  | succ n ih =>
    funext c
    show (seesAny (first :: others) >>= _) c =
      (turn _ _ (blockEnd first others) done >>= Sum.elim (rounds _ _ n) pure) c
    rw [bind_of_ok (seesAny_eq _ c)]
    -- The loop stops at a closing word and at the end of the text.
    by_cases hsees : Sees (first :: others) c.rest.head?
    · rw [turn_bind_of_none (statementStart_of_sees hsees), blockEnd_of_sees hsees]
      simp [hsees]
    · -- Without a statement the complaint is the same.
      cases hhead : c.rest.head? with
      | none =>
        rw [turn_bind_of_none ((statementStart_of_not_sees hsees).trans hhead),
          blockEnd_of_not_sees hsees]
        rw [hhead] at hsees
        simp [hsees, peek, bind, EStateM.bind, hhead]
      | some t =>
        rw [turn_bind_of_some ((statementStart_of_not_sees hsees).trans hhead), ← funext ih,
          bind_map_left]
        rw [hhead] at hsees
        simp [hsees, peek, bind, EStateM.bind, hhead]

private theorem rule_statements {item : Parse Statement} (hk : k ≤ 1)
    (h : Rule lo 1 item (Sees (first :: others)) fix) (hne : fix ≠ []) :
    Rule lo k (do statements item first others ((← remaining) + 1) []) (Sees (first :: others))
      [] := by
  rw [statements_eq]
  refine Rule.turns ?_ ?_ ?_ (rule_blockEnd hk) (fun _ => statementStart_of_sees) 1 []
  · exact ite_self none
  -- At the end of the text no statement starts, so the block ends there.
  · intro done c hrest
    refine (blockEnd_of_not_sees ?_ done).symm
    rw [hrest]
    exact fun ⟨_, _, hspells⟩ => nomatch hspells
  · intro _ done c _ hlo
    exact ⟨fix, hne, (h.ahead c hlo).map _⟩

end Blocks

/-- Blocks within any depth, by induction on the depth that is left. -/
theorem rule_blockWithin (n : Nat) (hn : maxNesting < n + lo) : RuleBlock lo (blockWithin n) := by
  intro first others
  induction n generalizing lo first others with
  | zero => exact rule_tooDeep (by omega) fun _ h => nomatch h
  | succ n ih =>
    have hinner : RuleBlock (lo + 1) (blockWithin n) := ih (by omega)
    exact (rule_statements (Nat.zero_le _) (rule_statement hinner)
      (List.cons_ne_nil _ _)).restoringDepth_enter

private theorem rule_block : RuleBlock lo block :=
  rule_blockWithin (maxNesting + 1) (by omega)

/-! ## Programs -/

private theorem rule_parameter : Rule lo 1 parameter (Avoids [":"]) [.word "x"] := by
  refine rule_name.before fun name => ?_
  exact rule_annotation.andThen (fun typeName => rule_pure (Nat.le_refl _) _) fun _ h => h

private theorem rule_parameters : Rule lo 1 parameters (Sees [")"]) [] := by
  have hlist : Rule lo 1 (commaList parameter) (Sees [")"]) [.word "x"] :=
    (rule_commaList rule_parameter).imp (Nat.le_refl _) fun _ h => h.avoids (by simp)
  exact (rule_pure (Nat.le_refl _) []).sees hlist (List.cons_ne_nil _ _) fun _ h => h

/-- The shortest method has no parameters and an empty body. -/
private theorem rule_method :
    Rule lo 1 method stops
      [.word "DEF", .word "x", .sign "(", .sign ")", .word "DO", .word "END"] := by
  refine (rule_word (by simp)).before fun _ => ?_
  refine rule_name.before fun name => ?_
  refine (rule_sign (by simp)).before fun _ => ?_
  refine rule_parameters.bind (fun parameters => ?_) fun _ _ => sees_some rfl
  refine (rule_sign (by simp)).before fun _ => ?_
  refine rule_annotation.bind (fun returnTypeName => ?_) fun _ _ => avoids_some rfl
  exact rule_body rule_block fun _ => rule_fresh (Nat.le_refl _)

/-- Nothing follows the last method. -/
def sourceEnd (source : Source) : Parse Source := do
  match ← peek with
  | none => return source
  | some t => fail (.trailing t.lexeme)

private theorem rule_sourceEnd (source : Source) : Rule lo 1 (sourceEnd source) (· = none) [] := by
  -- At the end of the text the program is complete.
  have hend : ∀ {c : Cursor}, c.rest.head? = none →
      sourceEnd source c = (pure source : Parse Source) c := by
    intro c hhead
    simp only [sourceEnd, peek, bind, EStateM.bind, hhead]
  have hmend : Mends lo 1 (sourceEnd source) (· = none) [] := by
    apply (mends_pure source).look
    intro c rest hrest hstop
    exact hend (by rwa [hrest])
  refine ⟨Nat.le_refl _, fun c hlo => ?_, hmend⟩
  cases hhead : c.rest.head? with
  | none =>
    apply (oneAhead_pure source).look hlo _ _ hmend
    · exact fun c' _ hhead' => hend (hhead'.trans hhead)
    · exact fun _ => ⟨rfl, fun c' _ hstop => hend hstop⟩
  | some t =>
    apply oneAhead_fails (.trailing t.lexeme) hlo _ hmend
    intro c' _ hhead'
    simp only [sourceEnd, peek, bind, EStateM.bind, hhead'.trans hhead]

/-- Between two items a program is complete. -/
theorem rule_source : Rule 0 1 source (· = none) [] := by
  refine (rule_manyAt rule_declaration (List.cons_ne_nil _ _)).andThen (fun fields => ?_)
    fun next hend => ?_
  · refine (rule_manyAt rule_method (List.cons_ne_nil _ _)).andThen
      (fun methods => rule_sourceEnd ⟨fields, methods⟩) fun next hend => ?_
    rw [hend]
    exact fun _ _ => rfl
  · rw [hend]
    exact fun _ _ => rfl

end Parse

/-! ## Errors -/

/-- The end of a text is where its last token stops. -/
private theorem foldl_stop (tokens : List Token) (n : Nat) :
    tokens.foldl (fun _ t => t.stop) n = (tokens.getLast?.map Token.stop).getD n := by
  obtain rfl | ⟨front, t, rfl⟩ := List.eq_nil_or_concat tokens
  · rfl
  · simp

/-- The place of a cursor that was moved to: its next token, or else the end of the last one. -/
theorem Cursor.Moves.offset_eq {ts pre : List Token} {c : Cursor}
    (h : (Cursor.start ts).Moves c pre) :
    c.offset = (ts[pre.length]?.map Token.offset).getD ((ts.getLast?.map Token.stop).getD 0) := by
  have hts : ts = pre ++ c.rest := h.rest_eq
  rw [Cursor.offset_eq_getD, h.consumed_eq, foldl_stop, hts]
  cases hrest : c.rest with
  | nil => simp [Cursor.start]
  | cons t rest => simp

private theorem parse_eq_error_iff {ts : List Token} {e : ParseError} :
    parse ts = .error e ↔ ∃ c, Parse.source (Cursor.start ts) = .error e c := by
  unfold parse
  cases Parse.source (Cursor.start ts) <;> simp

/-- An error is reported at the first token that cannot be right.  Having consumed `i` tokens, the
    parser fails at the next one, whatever comes behind that, and the tokens before it are the
    start of a program. -/
theorem parse_fails_at_first_fault {ts : List Token} {e : ParseError} (h : parse ts = .error e) :
    ∃ i c, Parse.source (Cursor.start ts) = .error e c ∧ i ≤ ts.length ∧ c.rest = ts.drop i ∧
      e.offset = (ts[i]?.map Token.offset).getD ((ts.getLast?.map Token.stop).getD 0) ∧
      (i < ts.length → ∀ us, parse (ts.take (i + 1) ++ us) = .error e) ∧
      (e.fault ≠ .tooDeep → c.depth < maxNesting →
        ∃ vs, (∀ t ∈ vs, t.WellFormed) ∧ ∃ s, parse (ts.take i ++ vs) = .ok s) := by
  obtain ⟨c, hrun⟩ := parse_eq_error_iff.mp h
  obtain ⟨pre, hfailed⟩ := (Parse.rule_source.ahead _ (Nat.zero_le _)).of_error hrun
  have hts : ts = pre ++ c.rest := hfailed.moves.rest_eq
  have htake : ts.take pre.length = pre := by rw [hts, List.take_left]
  -- Every other list of tokens is read from the same place.
  have hstart : ∀ us, (Cursor.start ts).Alike (Cursor.start us) := fun us => ⟨rfl, rfl, rfl⟩
  refine ⟨pre.length, c, hrun, ?_, ?_, ?_, ?_, ?_⟩
  · rw [hts, List.length_append]
    omega
  · rw [hts, List.drop_left]
  · rw [hfailed.offset_eq, hfailed.moves.offset_eq]
  · intro hlt us
    obtain ⟨t, rest, hrest⟩ : ∃ t rest, c.rest = t :: rest := by
      apply List.exists_cons_of_length_pos
      rw [hts, List.length_append] at hlt
      omega
    have hnext : ts.take (pre.length + 1) ++ us = pre ++ t :: us := by
      rw [hts, hrest, List.take_append]
      simp
    rw [hnext]
    apply parse_eq_error_iff.mpr
    exact hfailed.again (Cursor.start (pre ++ t :: us)) (t :: us) (hstart _) rfl
      (by rw [hrest]; rfl)
  · intro hfault hdepth
    obtain ⟨vs, hvs, _, hmended⟩ := hfailed.mends hfault hdepth
    obtain ⟨s, d, hrun', _⟩ := hmended (Cursor.start (pre ++ vs)) [] (hstart _)
      (by rw [List.append_nil]; rfl) rfl
    refine ⟨vs, hvs, s, ?_⟩
    rw [htake, parse, hrun']

/-- A loop whose header breaks off: the word `IN` is due where `DO` stands. -/
def brokenHeader : List Token :=
  [⟨.identifier, "DEF", 0⟩, ⟨.identifier, "main", 4⟩, ⟨.operator, "(", 8⟩, ⟨.operator, ")", 9⟩,
    ⟨.identifier, "DO", 11⟩, ⟨.identifier, "FOR", 14⟩, ⟨.identifier, "i", 18⟩,
    ⟨.identifier, "DO", 20⟩]

theorem brokenHeader_fails_at_do :
    parse brokenHeader = .error ⟨20, .expected "IN"⟩ ∧
      (∀ us, parse (brokenHeader ++ us) = .error ⟨20, .expected "IN"⟩) ∧
      ∃ vs s, parse (brokenHeader.take 7 ++ vs) = .ok s := by
  have hparse : parse brokenHeader = .error ⟨20, .expected "IN"⟩ := rfl
  obtain ⟨i, c, hrun, hle, hrest, _, hagain, hmends⟩ := parse_fails_at_first_fault hparse
  -- The parser stands before the last token, inside the block of the method.
  have hend : ∃ d, Parse.source (Cursor.start brokenHeader) = .error ⟨20, .expected "IN"⟩ d ∧
      d.rest.length = 1 ∧ d.depth = 1 := ⟨_, rfl, rfl, rfl⟩
  obtain ⟨d, hrun', hlength, hdepth⟩ := hend
  obtain rfl : c = d := by simpa using hrun.symm.trans hrun'
  have hi : i = 7 := by
    have htokens : brokenHeader.length = 8 := rfl
    rw [hrest, List.length_drop] at hlength
    omega
  subst hi
  obtain ⟨vs, _, s, hmended⟩ := hmends nofun (by rw [hdepth]; decide)
  exact ⟨hparse, hagain (by decide), vs, s, hmended⟩

end LetLang
