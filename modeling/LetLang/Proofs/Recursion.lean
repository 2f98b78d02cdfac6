import LetLang.Proofs.Lookahead

/-! # The rules of the grammar enter each other

The parser turns the circle of rules at most `maxNesting + 1` times, but it never notices: whoever
would need another turn has been told that the program is nested too deeply.  So `expression` is
what the grammar says, an expression with `expression` inside, and `block` likewise.

`Agrees lo p q` says that two steps do the same wherever they are nested at least `lo` deep.

* `expression_eq`, `block_eq`   one turn of the circle -/

namespace LetLang

namespace Parse

variable {α β : Type} {lo : Nat}

/-- Nested at least `lo` deep, the two steps do the same, and they end no less deep. -/
def Agrees (lo : Nat) (p q : Parse α) : Prop :=
  ∀ c : Cursor, lo ≤ c.depth → p c = q c ∧ lo ≤ (endState (p c)).depth

section Rules

/-- A rule that does not lose depth agrees with itself. -/
private theorem agrees_self {p : Parse α} (h : ∀ c, c.depth ≤ (endState (p c)).depth) :
    Agrees lo p p :=
  fun c hc => ⟨rfl, Nat.le_trans hc (h c)⟩

/-- Sequences agree if their parts do. -/
theorem Agrees.bind {p q : Parse α} {f g : α → Parse β} (hp : Agrees lo p q)
    (hf : ∀ a, Agrees lo (f a) (g a)) : Agrees lo (p >>= f) (q >>= g) := by
  intro c hc
  obtain ⟨heq, hend⟩ := hp c hc
  -- The second parser starts where the first ended, and that is deep enough again.
  cases hrun : p c with
  | ok a c' =>
    rw [hrun] at heq hend
    rw [bind_of_ok hrun, bind_of_ok heq.symm]
    exact hf a c' hend
  | error e c' =>
    rw [hrun] at heq hend
    rw [bind_of_error hrun, bind_of_error heq.symm]
    exact ⟨rfl, hend⟩

theorem Agrees.map {p q : Parse α} (h : Agrees lo p q) (f : α → β) :
    Agrees lo (f <$> p) (f <$> q) := by
  simp only [map_eq_pure_bind]
  exact h.bind fun _ => agrees_self fun _ => Nat.le_refl _

theorem Agrees.ite {b : Prop} [Decidable b] {p p' q q' : Parse α} (hp : Agrees lo p p')
    (hq : Agrees lo q q') : Agrees lo (if b then p else q) (if b then p' else q') := by
  split
  · exact hp
  · exact hq

/-- Putting the depth back keeps it above the bound. -/
theorem Agrees.restoringDepth {p q : Parse α} (h : Agrees lo p q) :
    Agrees lo (restoringDepth p) (restoringDepth q) := by
  intro c hc
  obtain ⟨heq, hend⟩ := h c hc
  unfold Parse.restoringDepth
  rw [← heq]
  cases hrun : p c with
  | ok a c' => exact ⟨rfl, hc⟩
  | error e c' =>
    rw [hrun] at hend
    exact ⟨rfl, hend⟩

/-- Behind `enter` the steps start one level deeper. -/
theorem Agrees.deeper {p q : Parse α} (h : Agrees (lo + 1) p q) :
    Agrees lo (Parse.restoringDepth (do enter; p)) (Parse.restoringDepth (do enter; q)) := by
  refine Agrees.restoringDepth fun c hc => ?_
  by_cases hmax : maxNesting ≤ c.depth
  · have henter : enter c = .error ⟨c.offset, .tooDeep⟩ c := if_pos hmax
    rw [bind_of_error henter, bind_of_error henter]
    exact ⟨rfl, hc⟩
  · have henter : enter c = .ok () c.deeper := if_neg hmax
    rw [bind_of_ok henter, bind_of_ok henter]
    obtain ⟨heq, hend⟩ := h c.deeper (Nat.succ_le_succ hc)
    exact ⟨heq, Nat.le_of_succ_le hend⟩

/-! ### Steps that are the same anyway -/

private theorem agrees_pure (a : α) :
    Agrees lo (pure a) (pure a) := agrees_self fun _ => Nat.le_refl _

/-- An error is the same whatever the depth. -/
private theorem agrees_fail (fault : ParseFault) : Agrees lo (fail fault : Parse α) (fail fault) :=
  agrees_self fun _ => Nat.le_refl _

private theorem agrees_peek : Agrees lo peek peek := agrees_self fun _ => Nat.le_refl _

private theorem agrees_sees (lexeme : String) : Agrees lo (sees lexeme) (sees lexeme) :=
  agrees_self fun _ => Nat.le_refl _

private theorem agrees_seesAny (words : List String) : Agrees lo (seesAny words) (seesAny words) :=
  agrees_self fun _ => Nat.le_refl _

private theorem agrees_remaining :
    Agrees lo remaining remaining := agrees_self fun _ => Nat.le_refl _

private theorem agrees_fresh : Agrees lo fresh fresh := agrees_self fun _ => Nat.le_refl _

private theorem agrees_operatorAt (level : Level) :
    Agrees lo (operatorAt level) (operatorAt level) :=
  agrees_self fun _ => Nat.le_refl _

private theorem agrees_advance : Agrees lo advance advance :=
  agrees_self fun c => Nat.le_of_eq c.advance_depth.symm

/-- Taking a lexeme does not change the depth. -/
private theorem agrees_accept (lexeme : String) : Agrees lo (accept lexeme) (accept lexeme) := by
  apply agrees_self
  intro c
  unfold accept
  cases c.sees lexeme with
  | true => exact Nat.le_of_eq c.advance_depth.symm
  | false => exact Nat.le_refl _

/-- Going deeper only adds to it. -/
private theorem agrees_enter : Agrees lo enter enter := by
  apply agrees_self
  intro c
  unfold enter
  split
  · exact Nat.le_refl _
  · exact Nat.le_succ _

private theorem agrees_expect (lexeme : String) : Agrees lo (expect lexeme) (expect lexeme) :=
  (agrees_accept lexeme).bind fun _ => .ite (agrees_pure ()) (agrees_fail _)

private theorem agrees_identifier : Agrees lo identifier identifier := by
  refine agrees_peek.bind fun t => ?_
  cases t with
  | none => exact agrees_fail _
  | some t => exact .ite (agrees_advance.bind fun _ => agrees_pure _) (agrees_fail _)

private theorem agrees_node {make : NodeId → α} :
    Agrees lo (do return make (← fresh)) (do return make (← fresh)) :=
  agrees_fresh.bind fun _ => agrees_pure _

end Rules

/-! ## Expressions -/

section Expressions

variable {e e' : Parse Expr}

/-- Lists agree item by item. -/
private theorem agrees_commaRounds {item item' : Parse α} (h : Agrees lo item item') (n : Nat)
    (done : List α) : Agrees lo (commaRounds item n done) (commaRounds item' n done) := by
  induction n generalizing done with
  | zero => exact agrees_pure _
  | succ n ih =>
    exact (agrees_accept ",").bind fun _ => .ite (h.bind fun a => ih (a :: done)) (agrees_pure _)

/-- Arguments agree where expressions do. -/
private theorem agrees_arguments (h : Agrees lo e e') : Agrees lo (arguments e) (arguments e') := by
  refine (agrees_accept ")").bind fun _ => .ite (agrees_pure _) ?_
  have hlist : Agrees lo (commaList e) (commaList e') :=
    h.bind fun first => agrees_remaining.bind fun n => agrees_commaRounds h n [first]
  exact hlist.bind fun items => (agrees_expect ")").bind fun _ => agrees_pure items

/-- Primary expressions agree where expressions do. -/
private theorem agrees_primary (h : Agrees lo e e') : Agrees lo (primary e) (primary e') := by
  refine agrees_peek.bind fun t => ?_
  cases t with
  | none => exact agrees_fail _
  | some t =>
    -- The token decides the case in both rules.
    cases hliteral : Literal.ofToken? t with
    | some value =>
      simp only [hliteral]
      exact agrees_advance.bind fun _ => agrees_node
    | none =>
      simp only [hliteral]
      cases t.kind with
      | identifier =>
        refine agrees_advance.bind fun _ => (agrees_accept "(").bind fun _ => .ite ?_ agrees_node
        exact (agrees_arguments h).bind fun _ => agrees_node
      | operator =>
        refine .ite (agrees_advance.bind fun _ => h.bind fun _ => ?_) (agrees_fail _)
        exact (agrees_accept ")").bind fun _ => .ite agrees_node (agrees_fail _)
      | _ => exact agrees_fail _

/-- Chains of members agree where expressions do. -/
private theorem agrees_links (h : Agrees lo e e') (n : Nat) (receiver : Expr) :
    Agrees lo (links e n receiver) (links e' n receiver) := by
  induction n generalizing receiver with
  | zero => exact agrees_pure receiver
  | succ n ih =>
    refine (agrees_accept ".").bind fun _ => .ite ?_ (agrees_pure receiver)
    refine agrees_enter.bind fun _ => agrees_identifier.bind fun name => ?_
    refine (agrees_accept "(").bind fun _ => .ite ?_ (agrees_fresh.bind fun id => ih _)
    exact (agrees_arguments h).bind fun items => agrees_fresh.bind fun id => ih _

private theorem agrees_secondary (h : Agrees lo e e') : Agrees lo (secondary e) (secondary e') :=
  Agrees.restoringDepth <|
    (agrees_primary h).bind fun first => agrees_remaining.bind fun n => agrees_links h n first

/-- Chains of operators agree where their operands do. -/
private theorem agrees_chain (level : Level) (h : Agrees lo e e') (n : Nat) (left : Expr) :
    Agrees lo (chain level e n left) (chain level e' n left) := by
  induction n generalizing left with
  | zero => exact agrees_pure left
  | succ n ih =>
    refine (agrees_operatorAt level).bind fun operator => ?_
    cases operator with
    | none => exact agrees_pure left
    | some operator =>
      refine agrees_enter.bind fun _ => agrees_advance.bind fun _ => h.bind fun right => ?_
      exact agrees_fresh.bind fun id => ih _

private theorem agrees_binaryLevel (level : Level) (h : Agrees lo e e') :
    Agrees lo (binaryLevel level e) (binaryLevel level e') :=
  Agrees.restoringDepth <|
    h.bind fun left => agrees_remaining.bind fun n => agrees_chain level h n left

/-- Nested too deeply, nothing is read. -/
private theorem enter_of_deep {p : Parse α} {c : Cursor} (h : maxNesting ≤ c.depth) :
    restoringDepth (do enter; p) c = (fail .tooDeep : Parse α) c := by
  have henter : enter c = .error ⟨c.offset, .tooDeep⟩ c := if_pos h
  unfold restoringDepth
  rw [bind_of_error henter]
  rfl

/-- Past the limit no step has anything left to differ in. -/
private theorem agrees_of_deep {p q : Parse α} (hlo : maxNesting < lo)
    (hp : ∀ {c}, maxNesting < c.depth → p c = (fail .tooDeep : Parse α) c)
    (hq : ∀ {c}, maxNesting < c.depth → q c = (fail .tooDeep : Parse α) c) : Agrees lo p q := by
  intro c hc
  have hdeep := Nat.lt_of_lt_of_le hlo hc
  rw [hp hdeep, hq hdeep]
  exact ⟨rfl, hc⟩

/-- Beyond the bound on the nesting every expression fails at once, whatever the depth that is left.
    -/
private theorem expressionWithin_of_deep (n : Nat) {c : Cursor} (h : maxNesting < c.depth) :
    expressionWithin n c = (fail .tooDeep : Parse Expr) c := by
  cases n with
  | zero => rfl
  | succ n => exact enter_of_deep (Nat.le_of_lt h)

/-- How many turns are left does not matter if they are enough. -/
private theorem agrees_expressionWithin (n m : Nat) (hn : maxNesting < n + lo)
    (hm : maxNesting < m + lo) :
    Agrees lo (expressionWithin n) (expressionWithin m) := by
  -- A turn goes one level deeper, so turns and nesting together stay over the limit.
  induction n generalizing m lo with
  | zero =>
    exact agrees_of_deep (by omega) (expressionWithin_of_deep 0) (expressionWithin_of_deep m)
  | succ n ih =>
    cases m with
    | zero =>
      exact agrees_of_deep (by omega) (expressionWithin_of_deep (n + 1))
        (expressionWithin_of_deep 0)
    | succ m =>
      have hinner : Agrees (lo + 1) (expressionWithin n) (expressionWithin m) :=
        ih m (by omega) (by omega)
      have tight := agrees_binaryLevel .multiplicative (agrees_secondary hinner)
      exact Agrees.deeper (agrees_binaryLevel .logical
        (agrees_binaryLevel .comparison (agrees_binaryLevel .additive tight)))

end Expressions

/-- The depth that is given to expressions is enough. -/
private theorem agrees_expression : Agrees lo expression expression :=
  agrees_expressionWithin _ _ (by omega) (by omega)

/-- The operands of a level of binding. -/
def operandOf : Level → Parse Expr
  | .logical => binaryLevel .comparison (binaryLevel .additive
      (binaryLevel .multiplicative (secondary expression)))
  | .comparison => binaryLevel .additive (binaryLevel .multiplicative (secondary expression))
  | .additive => binaryLevel .multiplicative (secondary expression)
  | .multiplicative => secondary expression

/-- An expression is one of the loosest level, with expressions inside. -/
theorem expression_eq :
    expression = restoringDepth (do enter; binaryLevel .logical (operandOf .logical)) := by
  have hinner : Agrees 1 (secondary (expressionWithin maxNesting)) (secondary expression) :=
    agrees_secondary (agrees_expressionWithin _ _ (by omega) (by omega))
  have htight := agrees_binaryLevel .multiplicative hinner
  have hagrees : Agrees 0 expression
      (restoringDepth (do enter; binaryLevel .logical (operandOf .logical))) :=
    Agrees.deeper (agrees_binaryLevel .logical
      (agrees_binaryLevel .comparison (agrees_binaryLevel .additive htight)))
  funext c
  exact (hagrees c (Nat.zero_le _)).1

/-! ## Statements -/

private theorem agrees_annotation : Agrees lo annotation annotation :=
  (agrees_accept ":").bind fun _ =>
    .ite (agrees_identifier.bind fun _ => agrees_pure _) (agrees_pure _)

private theorem agrees_declaration : Agrees lo declaration declaration := by
  refine (agrees_expect "LET").bind fun _ => agrees_identifier.bind fun _ => ?_
  refine agrees_annotation.bind fun _ => ?_
  have hvalue : Agrees lo initialValue initialValue :=
    (agrees_accept "=").bind fun _ => .ite (agrees_expression.map some) (agrees_pure none)
  exact hvalue.bind fun _ => (agrees_expect ";").bind fun _ => agrees_node

/-- An expression up to the semicolon. -/
private theorem agrees_terminated {f : Expr → Statement} :
    Agrees lo (do let value ← expression; expect ";"; return f value)
      (do let value ← expression; expect ";"; return f value) :=
  agrees_expression.bind fun _ => (agrees_expect ";").bind fun _ => agrees_pure _

private theorem agrees_plainStatement : Agrees lo plainStatement plainStatement := by
  refine agrees_expression.bind fun _ => (agrees_accept "=").bind fun _ => ?_
  exact .ite agrees_terminated ((agrees_expect ";").bind fun _ => agrees_pure _)

section Statements

variable {block block' : BlockReader}

/-- The two readers do the same with all words. -/
def AgreeOnBlocks (lo : Nat) (block block' : BlockReader) : Prop :=
  ∀ first others, Agrees lo (block first others) (block' first others)

/-- A body between `DO` and `END`. -/
private theorem agrees_body (h : AgreeOnBlocks lo block block') {f : List Statement → Statement} :
    Agrees lo (do expect "DO"; let body ← block "END" []; expect "END"; return f body)
      (do expect "DO"; let body ← block' "END" []; expect "END"; return f body) :=
  (agrees_expect "DO").bind fun _ => (h "END" []).bind fun _ =>
    (agrees_expect "END").bind fun _ => agrees_pure _

private theorem agrees_ifStatement (h : AgreeOnBlocks lo block block') :
    Agrees lo (ifStatement block) (ifStatement block') := by
  refine agrees_expression.bind fun _ => (agrees_expect "DO").bind fun _ => ?_
  have helse : Agrees lo (elseBlock block) (elseBlock block') :=
    (agrees_accept "ELSE").bind fun _ => .ite (h "END" []) (agrees_pure [])
  exact (h "ELSE" ["END"]).bind fun _ => helse.bind fun _ =>
    (agrees_expect "END").bind fun _ => agrees_pure _

/-- Statements agree where blocks do. -/
private theorem agrees_statement (h : AgreeOnBlocks lo block block') :
    Agrees lo (statement block) (statement block') := by
  refine (agrees_sees "LET").bind fun _ => .ite (agrees_declaration.map _) ?_
  refine (agrees_accept "IF").bind fun _ => .ite (agrees_ifStatement h) ?_
  refine (agrees_accept "FOR").bind fun _ => .ite ?_ ?_
  · exact agrees_identifier.bind fun _ => (agrees_expect "IN").bind fun _ =>
      agrees_expression.bind fun _ => agrees_body h
  refine (agrees_accept "WHILE").bind fun _ => .ite ?_ ?_
  · exact agrees_expression.bind fun _ => agrees_body h
  exact (agrees_accept "RETURN").bind fun _ => .ite agrees_terminated agrees_plainStatement

/-- Statements in a row agree where each of them does. -/
private theorem agrees_statements {item item' : Parse Statement} (h : Agrees lo item item')
    (first : String) (others : List String) (n : Nat) (done : List Statement) :
    Agrees lo (statements item first others n done) (statements item' first others n done) := by
  induction n generalizing done with
  | zero => exact agrees_fail _
  | succ n ih =>
    refine (agrees_seesAny _).bind fun _ => .ite (agrees_pure _) (agrees_peek.bind fun t => ?_)
    cases t with
    | none => exact agrees_fail _
    | some t => exact h.bind fun s => ih (s :: done)

/-- The statements of a block, one level deeper. -/
private theorem agrees_nested (h : AgreeOnBlocks (lo + 1) block block') (first : String)
    (others : List String) :
    Agrees lo
      (restoringDepth do
        enter
        statements (statement block) first others ((← remaining) + 1) [])
      (restoringDepth do
        enter
        statements (statement block') first others ((← remaining) + 1) []) :=
  Agrees.deeper <| agrees_remaining.bind fun n =>
    agrees_statements (agrees_statement h) first others (n + 1) []

end Statements

/-- Beyond the bound every block fails at once too. -/
private theorem blockWithin_of_deep (n : Nat) (first : String) (others : List String) {c : Cursor}
    (h : maxNesting < c.depth) :
    blockWithin n first others c = (fail .tooDeep : Parse (List Statement)) c := by
  cases n with
  | zero => rfl
  | succ n => exact enter_of_deep (Nat.le_of_lt h)

/-- Two depths that are enough give the same blocks. -/
private theorem agrees_blockWithin (n m : Nat) (hn : maxNesting < n + lo)
    (hm : maxNesting < m + lo) :
    AgreeOnBlocks lo (blockWithin n) (blockWithin m) := by
  induction n generalizing m lo with
  | zero =>
    exact fun first others => agrees_of_deep (by omega) (blockWithin_of_deep 0 first others)
      (blockWithin_of_deep m first others)
  | succ n ih =>
    -- A bound of 0 is enough only where the nesting is used up, and there both give up at once.
    cases m with
    | zero =>
      exact fun first others => agrees_of_deep (by omega) (blockWithin_of_deep (n + 1) first others)
        (blockWithin_of_deep 0 first others)
    | succ m => exact agrees_nested (ih m (by omega) (by omega))

/-- A block is a list of statements, with blocks inside. -/
theorem block_eq (first : String) (others : List String) :
    block first others =
      (restoringDepth do
        enter
        statements (statement block) first others ((← remaining) + 1) []) := by
  have hinner : AgreeOnBlocks 1 (blockWithin maxNesting) block :=
    agrees_blockWithin _ _ (by omega) (by omega)
  funext c
  exact (agrees_nested hinner first others c (Nat.zero_le _)).1

end Parse

end LetLang
