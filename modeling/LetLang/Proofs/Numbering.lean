import LetLang.Parser.Grammar
import LetLang.Proofs.Outcome

/-! # The numbers of nodes

`Source.ids` lists the numbers of all nodes of a program, those inside a node before the
node itself and otherwise in the order of the text.  A parsed program is numbered in just
that order: `ids_parse` says that the list is `0, 1, …, n - 1`.

`Draws before p ids` says what a step of the parser adds to it: if the numbers `before` are
drawn already, then those of the result are `before` and, in order, the ones that the step
draws. -/

namespace LetLang

/-! ## Listing them -/

mutual

/-- The numbers of the nodes of an expression. -/
def Expr.ids : Expr → List NodeId
  | .literal id _ => [id]
  | .group id inner => inner.ids ++ [id]
  | .binary id _ left right => left.ids ++ right.ids ++ [id]
  | .var id _ => [id]
  | .field id receiver _ => receiver.ids ++ [id]
  | .call id _ items => Expr.idsAll items ++ [id]
  | .invoke id receiver _ items => receiver.ids ++ Expr.idsAll items ++ [id]

/-- The numbers of the nodes of expressions. -/
def Expr.idsAll : List Expr → List NodeId
  | [] => []
  | e :: rest => e.ids ++ Expr.idsAll rest

end

mutual

/-- The nodes of an expression, each behind those inside it. -/
def Expr.nodes : Expr → List Expr
  | .literal id value => [.literal id value]
  | .group id inner => inner.nodes ++ [.group id inner]
  | .binary id operator left right => left.nodes ++ right.nodes ++ [.binary id operator left right]
  | .var id name => [.var id name]
  | .field id receiver name => receiver.nodes ++ [.field id receiver name]
  | .call id name items => Expr.nodesAll items ++ [.call id name items]
  | .invoke id receiver name items =>
    receiver.nodes ++ Expr.nodesAll items ++ [.invoke id receiver name items]

/-- The nodes of expressions. -/
def Expr.nodesAll : List Expr → List Expr
  | [] => []
  | e :: rest => e.nodes ++ Expr.nodesAll rest

end

/-- The numbers of the nodes of a declaration. -/
def Declaration.ids (d : Declaration) : List NodeId :=
  (d.initializer.elim [] Expr.ids) ++ [d.id]

mutual

/-- The numbers of the nodes of a statement. -/
def Statement.ids : Statement → List NodeId
  | .expression value => value.ids
  | .declare d => d.ids
  | .assign target value => target.ids ++ value.ids
  | .ifElse condition thenBody elseBody =>
    condition.ids ++ Statement.idsAll thenBody ++ Statement.idsAll elseBody
  | .forIn _ iterable body => iterable.ids ++ Statement.idsAll body
  | .whileDo condition body => condition.ids ++ Statement.idsAll body
  | .returns value => value.ids

/-- The numbers of the nodes of statements. -/
def Statement.idsAll : List Statement → List NodeId
  | [] => []
  | s :: rest => s.ids ++ Statement.idsAll rest

end

/-- The numbers of the nodes of a method. -/
def Method.ids (m : Method) : List NodeId := Statement.idsAll m.body ++ [m.id]

/-- The numbers of the nodes of a program. -/
def Source.ids (s : Source) : List NodeId :=
  s.fields.flatMap Declaration.ids ++ s.methods.flatMap Method.ids

/-- The ids of a list of expressions are put together from those of the expressions. -/
private theorem Expr.idsAll_eq_flatMap (items : List Expr) :
    Expr.idsAll items = items.flatMap Expr.ids := by
  induction items with
  | nil => rfl
  | cons e rest ih => rw [Expr.idsAll, ih, List.flatMap_cons]

/-- The ids of a list of statements are put together from those of the statements. -/
private theorem Statement.idsAll_eq_flatMap (body : List Statement) :
    Statement.idsAll body = body.flatMap Statement.ids := by
  induction body with
  | nil => rfl
  | cons s rest ih => rw [Statement.idsAll, ih, List.flatMap_cons]

/-- Arguments have the ids of their nodes. -/
private theorem Expr.idsAll_eq_map {items : List Expr}
    (h : ∀ e ∈ items, e.ids = e.nodes.map Expr.id) :
    Expr.idsAll items = (Expr.nodesAll items).map Expr.id := by
  induction items with
  | nil => rfl
  | cons e rest ih =>
    have hrest := ih fun e' he' => h e' (List.mem_cons_of_mem _ he')
    rw [Expr.idsAll, Expr.nodesAll, List.map_append, h e List.mem_cons_self, hrest]

/-- The ids of an expression are those of its nodes, in the same order. -/
theorem Expr.ids_eq_map : ∀ e : Expr, e.ids = e.nodes.map Expr.id
  | .literal .. | .var .. => rfl
  | .group _ inner => by simp [Expr.ids, Expr.nodes, Expr.ids_eq_map inner, Expr.id]
  | .binary _ _ left right => by
    simp [Expr.ids, Expr.nodes, Expr.ids_eq_map left, Expr.ids_eq_map right, Expr.id]
  | .field _ receiver _ => by simp [Expr.ids, Expr.nodes, Expr.ids_eq_map receiver, Expr.id]
  | .call _ _ items => by
    have hitems := Expr.idsAll_eq_map fun e (_ : e ∈ items) => Expr.ids_eq_map e
    simp [Expr.ids, Expr.nodes, hitems, Expr.id]
  | .invoke _ receiver _ items => by
    have hitems := Expr.idsAll_eq_map fun e (_ : e ∈ items) => Expr.ids_eq_map e
    simp [Expr.ids, Expr.nodes, Expr.ids_eq_map receiver, hitems, Expr.id]

/-! ## Drawing them -/

namespace Parse

variable {α β : Type}

/-- Between two places the numbers `l` were drawn, in order. -/
structure Drawn (c c' : Cursor) (l : List NodeId) : Prop where
  next_eq : c'.nextId = c.nextId + l.length
  eq_range : l = List.range' c.nextId l.length

/-- A step that leaves the counter alone draws nothing. -/
theorem Drawn.nil {c c' : Cursor} (h : c'.nextId = c.nextId) : Drawn c c' [] := ⟨h, rfl⟩

/-- What two steps draw is drawn one after the other. -/
theorem Drawn.append {c c' c'' : Cursor} {l l' : List NodeId} (h : Drawn c c' l)
    (h' : Drawn c' c'' l') : Drawn c c'' (l ++ l') where
  next_eq := by rw [h'.next_eq, h.next_eq, List.length_append, Nat.add_assoc]
  eq_range := by
    -- The second run of numbers starts where the first one ends.
    have hl' := h'.eq_range
    rw [h.next_eq] at hl'
    rw [List.length_append, ← List.range'_append_1, ← h.eq_range, ← hl']

/-- The numbers of the result are `before` and then those that `p` draws. -/
def Draws (before : List NodeId) (p : Parse α) (ids : α → List NodeId) : Prop :=
  ∀ c, Ends p c (fun a c' => ∃ l, ids a = before ++ l ∧ Drawn c c' l) (fun _ _ => True)

section Rules

variable {before : List NodeId}

/-- A step that draws no number. -/
private theorem draws_of_next_eq {p : Parse α}
    (h : ∀ c, Ends p c (fun _ c' => c'.nextId = c.nextId) (fun _ _ => True)) :
    Draws before p (fun _ => before) := by
  intro c
  exact (h c).mono (fun _ _ _ hn => ⟨[], (List.append_nil _).symm, .nil hn⟩)

/-- A value that holds what was drawn before draws nothing. -/
private theorem draws_pure {ids : α → List NodeId} {a : α} (h : ids a = before) :
    Draws before (pure a) ids := by
  intro c
  exact ⟨[], by rw [h, List.append_nil], .nil rfl⟩

private theorem draws_fail {ids : α → List NodeId} (fault : ParseFault) :
    Draws before (fail fault) ids :=
  fun _ => trivial

/-- A new id is drawn behind those before. -/
private theorem draws_fresh : Draws before fresh (fun id => before ++ [id]) :=
  fun _ => ⟨[_], rfl, rfl, rfl⟩

/-- A sequence hands on what was drawn so far. -/
theorem Draws.bind {p : Parse α} {f : α → Parse β} {ids : α → List NodeId}
    {ids' : β → List NodeId} (hp : Draws before p ids) (hf : ∀ a, Draws (ids a) (f a) ids') :
    Draws before (p >>= f) ids' := by
  intro c
  refine (hp c).bind ?_
  intro a c₁ _ hend
  obtain ⟨l, hl, hd⟩ := hend
  refine (hf a c₁).mono ?_
  intro b c₂ _ hend
  obtain ⟨l', hl', hd'⟩ := hend
  exact ⟨l ++ l', by rw [hl', hl, List.append_assoc], hd.append hd'⟩

/-- Numbers that were drawn even earlier make no difference. -/
theorem Draws.append {p : Parse α} {ids : α → List NodeId} (h : Draws [] p ids) :
    Draws before p (fun a => before ++ ids a) := by
  intro c
  refine (h c).mono ?_
  intro a c' _ hend
  obtain ⟨l, hl, hd⟩ := hend
  exact ⟨l, congrArg (before ++ ·) hl, hd⟩

theorem Draws.ite {p : Prop} [Decidable p] {x y : Parse α} {ids : α → List NodeId}
    (hx : Draws before x ids) (hy : Draws before y ids) :
    Draws before (if p then x else y) ids := by
  split
  · exact hx
  · exact hy

theorem Draws.map {p : Parse α} {f : α → β} {ids : β → List NodeId}
    (h : Draws before p (fun a => ids (f a))) : Draws before (f <$> p) ids := by
  intro c
  rw [ends_map]
  exact h c

/-- The depth has nothing to do with ids. -/
theorem Draws.restoringDepth {p : Parse α} {ids : α → List NodeId} (h : Draws before p ids) :
    Draws before (restoringDepth p) ids := by
  intro c
  have hc := h c
  unfold Ends at hc ⊢
  unfold Parse.restoringDepth
  cases hp : p c with
  | ok a c' =>
    rw [hp] at hc
    obtain ⟨l, hl, hd⟩ := hc
    exact ⟨l, hl, hd.next_eq, hd.eq_range⟩
  | error e c' => trivial

/-! ### Steps that draw none -/

theorem advance_nextId (c : Cursor) : c.advance.nextId = c.nextId := by
  unfold Cursor.advance
  split <;> rfl

private theorem draws_peek : Draws before peek (fun _ => before) := draws_of_next_eq fun _ => rfl

private theorem draws_sees (lexeme : String) : Draws before (sees lexeme) (fun _ => before) :=
  draws_of_next_eq fun _ => rfl

private theorem draws_seesAny (words : List String) :
    Draws before (seesAny words) (fun _ => before) :=
  draws_of_next_eq fun _ => rfl

private theorem draws_remaining : Draws before remaining (fun _ => before) :=
  draws_of_next_eq fun _ => rfl

private theorem draws_operatorAt (level : Level) :
    Draws before (operatorAt level) (fun _ => before) :=
  draws_of_next_eq fun _ => rfl

private theorem draws_advance : Draws before advance (fun _ => before) :=
  draws_of_next_eq fun c => advance_nextId c

private theorem draws_enter : Draws before enter (fun _ => before) := by
  apply draws_of_next_eq
  intro c
  unfold Ends enter
  split
  · rename_i h
    split at h
    · exact nomatch h
    · cases h; rfl
  · trivial

/-- A lexeme is read without an id. -/
private theorem draws_accept (lexeme : String) :
    Draws before (accept lexeme) (fun _ => before) := by
  apply draws_of_next_eq
  intro c
  unfold Ends accept
  cases c.sees lexeme with
  | true => exact advance_nextId c
  | false => rfl

private theorem draws_expect (lexeme : String) : Draws before (expect lexeme) (fun _ => before) :=
  (draws_accept lexeme).bind fun _ => Draws.ite (draws_pure rfl) (draws_fail _)

private theorem draws_identifier : Draws before identifier (fun _ => before) := by
  refine draws_peek.bind fun t => ?_
  cases t with
  | none => exact draws_fail _
  | some t => exact Draws.ite (draws_advance.bind fun _ => draws_pure rfl) (draws_fail _)

private theorem draws_annotation : Draws before annotation (fun _ => before) := by
  refine (draws_accept ":").bind fun _ => Draws.ite ?_ (draws_pure rfl)
  exact draws_identifier.bind fun _ => draws_pure rfl

/-! ### Repetition -/

/-- A list draws the ids of its items in order. -/
private theorem draws_commaRounds {item : Parse α} {ids : α → List NodeId} (h : Draws [] item ids)
    (n : Nat) (done : List α) :
    Draws (done.reverse.flatMap ids) (commaRounds item n done) (fun l => l.flatMap ids) := by
  induction n generalizing done with
  | zero => exact draws_pure rfl
  | succ n ih =>
    -- The items so far are collected in reverse, so a new one goes in front.
    refine (draws_accept ",").bind fun _ => Draws.ite ?_ (draws_pure rfl)
    refine h.append.bind fun a => ?_
    have := ih (a :: done)
    rwa [List.reverse_cons, List.flatMap_append, List.flatMap_singleton] at this

private theorem draws_commaList {item : Parse α} {ids : α → List NodeId} (h : Draws [] item ids) :
    Draws before (commaList item) (fun l => before ++ l.flatMap ids) := by
  refine Draws.append (h.bind fun a => draws_remaining.bind fun n => ?_)
  have := draws_commaRounds h n [a]
  rwa [List.reverse_singleton, List.flatMap_singleton] at this

/-- A repetition draws the ids of its items in order. -/
private theorem draws_manyRounds {item : Parse α} {ids : α → List NodeId} (lexeme : String)
    (h : Draws [] item ids) (n : Nat) (done : List α) :
    Draws (done.reverse.flatMap ids) (manyRounds lexeme item n done)
      (fun l => l.flatMap ids) := by
  induction n generalizing done with
  | zero => exact draws_pure rfl
  | succ n ih =>
    refine (draws_sees lexeme).bind fun _ => Draws.ite ?_ (draws_pure rfl)
    refine h.append.bind fun a => ?_
    have := ih (a :: done)
    rwa [List.reverse_cons, List.flatMap_append, List.flatMap_singleton] at this

private theorem draws_manyAt {item : Parse α} {ids : α → List NodeId} (lexeme : String)
    (h : Draws [] item ids) :
    Draws before (manyAt lexeme item) (fun l => before ++ l.flatMap ids) :=
  Draws.append (draws_remaining.bind fun n => draws_manyRounds lexeme h n [])

/-! ### Expressions -/

/-- Arguments draw the ids of the expressions. -/
private theorem draws_arguments {expression : Parse Expr} (h : Draws [] expression Expr.ids) :
    Draws before (arguments expression) (fun items => before ++ Expr.idsAll items) := by
  refine (draws_accept ")").bind fun _ => Draws.ite ?_ ?_
  · exact draws_pure (by rw [Expr.idsAll, List.append_nil])
  · refine (draws_commaList h).bind fun items => (draws_expect ")").bind fun _ => ?_
    exact draws_pure (by rw [Expr.idsAll_eq_flatMap])

/-- A node is numbered when it is complete. -/
private theorem draws_node {make : NodeId → Expr}
    (h : ∀ id, (make id).ids = before ++ [id]) :
    Draws before (do return make (← fresh)) Expr.ids := by
  exact draws_fresh.bind fun id => draws_pure (h id)

/-- The id of a node is drawn behind those of its parts. -/
private theorem draws_primary {expression : Parse Expr} (h : Draws [] expression Expr.ids) :
    Draws [] (primary expression) Expr.ids := by
  refine draws_peek.bind fun t => ?_
  cases t with
  | none => exact draws_fail _
  | some t =>
    cases hliteral : Literal.ofToken? t with
    -- Every way through a primary ends with the number of its node.
    | some value =>
      simp only [hliteral]
      exact draws_advance.bind fun _ => draws_node fun _ => rfl
    | none =>
      simp only [hliteral]
      cases t.kind with
      | identifier =>
        refine draws_advance.bind fun _ => (draws_accept "(").bind fun _ => Draws.ite ?_ ?_
        · exact (draws_arguments h).bind fun items => draws_node fun _ => rfl
        · exact draws_node fun _ => rfl
      | operator =>
        refine Draws.ite (draws_advance.bind fun _ => h.bind fun inner => ?_) (draws_fail _)
        refine (draws_accept ")").bind fun _ => Draws.ite ?_ (draws_fail _)
        exact draws_node fun _ => rfl
      | _ => exact draws_fail _

/-- Every link draws its own id behind those of its receiver and arguments. -/
private theorem draws_links {expression : Parse Expr} (h : Draws [] expression Expr.ids) (n : Nat)
    (receiver : Expr) : Draws receiver.ids (links expression n receiver) Expr.ids := by
  induction n generalizing receiver with
  | zero => exact draws_pure rfl
  | succ n ih =>
    refine (draws_accept ".").bind fun _ => Draws.ite ?_ (draws_pure rfl)
    -- The link becomes the receiver of the next one, with all numbers drawn so far inside.
    refine draws_enter.bind fun _ => draws_identifier.bind fun name => ?_
    refine (draws_accept "(").bind fun _ => Draws.ite ?_ ?_
    · exact (draws_arguments h).bind fun items => draws_fresh.bind fun id =>
        ih (.invoke id receiver name items)
    · exact draws_fresh.bind fun id => ih (.field id receiver name)

private theorem draws_secondary {expression : Parse Expr} (h : Draws [] expression Expr.ids) :
    Draws [] (secondary expression) Expr.ids :=
  Draws.restoringDepth <|
    (draws_primary h).bind fun first => draws_remaining.bind fun n => draws_links h n first

/-- Every link of an operator chain draws behind both operands. -/
private theorem draws_chain {operand : Parse Expr} (level : Level) (h : Draws [] operand Expr.ids)
    (n : Nat) (left : Expr) : Draws left.ids (chain level operand n left) Expr.ids := by
  induction n generalizing left with
  | zero => exact draws_pure rfl
  | succ n ih =>
    refine (draws_operatorAt level).bind fun operator => ?_
    cases operator with
    | none => exact draws_pure rfl
    | some operator =>
      refine draws_enter.bind fun _ => draws_advance.bind fun _ => h.append.bind fun right => ?_
      -- What has been read becomes the left operand, so the chain leans to the left.
      exact draws_fresh.bind fun id => ih (.binary id operator left right)

private theorem draws_binaryLevel {operand : Parse Expr} (level : Level)
    (h : Draws [] operand Expr.ids) : Draws [] (binaryLevel level operand) Expr.ids :=
  Draws.restoringDepth <|
    h.bind fun left => draws_remaining.bind fun n => draws_chain level h n left

/-- Expressions within any depth, by induction on the depth that is left. -/
private theorem draws_expressionWithin (n : Nat) : Draws [] (expressionWithin n) Expr.ids := by
  induction n with
  | zero => exact draws_fail _
  | succ n ih =>
    refine Draws.restoringDepth (draws_enter.bind fun _ => ?_)
    -- From the tightest level outward; expressions inside a primary have one level less.
    have tight := draws_binaryLevel .multiplicative (draws_secondary ih)
    exact draws_binaryLevel .logical
      (draws_binaryLevel .comparison (draws_binaryLevel .additive tight))

private theorem draws_expression : Draws before expression (fun e => before ++ e.ids) :=
  (draws_expressionWithin (maxNesting + 1)).append

/-! ### Statements -/

/-- A declaration draws its own id last. -/
private theorem draws_declaration : Draws before declaration (fun d => before ++ d.ids) := by
  refine (draws_expect "LET").bind fun _ => draws_identifier.bind fun name => ?_
  refine draws_annotation.bind fun typeName => ?_
  have hvalue : Draws before initialValue (fun e => before ++ e.elim [] Expr.ids) := by
    refine (draws_accept "=").bind fun _ => Draws.ite (Draws.map draws_expression) ?_
    exact draws_pure (by rw [Option.elim_none, List.append_nil])
  refine hvalue.bind fun e => (draws_expect ";").bind fun _ => draws_fresh.bind fun id => ?_
  exact draws_pure (by rw [Declaration.ids, List.append_assoc])

/-- How a block reader draws its numbers. -/
def BlockDraws (block : BlockReader) : Prop :=
  ∀ before first others,
    Draws before (block first others) (fun body => before ++ Statement.idsAll body)

private theorem draws_elseBlock {block : BlockReader} (h : BlockDraws block) :
    Draws before (elseBlock block) (fun body => before ++ Statement.idsAll body) := by
  refine (draws_accept "ELSE").bind fun _ => Draws.ite (h _ _ _) ?_
  exact draws_pure (by rw [Statement.idsAll, List.append_nil])

private theorem draws_ifStatement {block : BlockReader} (h : BlockDraws block) :
    Draws [] (ifStatement block) Statement.ids := by
  refine draws_expression.bind fun condition => (draws_expect "DO").bind fun _ => ?_
  refine (h _ _ _).bind fun thenBody => (draws_elseBlock h).bind fun elseBody => ?_
  refine (draws_expect "END").bind fun _ => ?_
  exact draws_pure rfl

private theorem draws_forStatement {block : BlockReader} (h : BlockDraws block) :
    Draws [] (forStatement block) Statement.ids := by
  refine draws_identifier.bind fun name => (draws_expect "IN").bind fun _ => ?_
  refine draws_expression.bind fun iterable => (draws_expect "DO").bind fun _ => ?_
  refine (h _ _ _).bind fun body => (draws_expect "END").bind fun _ => ?_
  exact draws_pure rfl

private theorem draws_whileStatement {block : BlockReader} (h : BlockDraws block) :
    Draws [] (whileStatement block) Statement.ids := by
  refine draws_expression.bind fun condition => (draws_expect "DO").bind fun _ => ?_
  refine (h _ _ _).bind fun body => (draws_expect "END").bind fun _ => ?_
  exact draws_pure rfl

private theorem draws_returnStatement : Draws [] returnStatement Statement.ids := by
  refine draws_expression.bind fun value => (draws_expect ";").bind fun _ => ?_
  exact draws_pure rfl

private theorem draws_plainStatement : Draws [] plainStatement Statement.ids := by
  refine draws_expression.bind fun first => (draws_accept "=").bind fun _ => Draws.ite ?_ ?_
  · refine draws_expression.bind fun value => (draws_expect ";").bind fun _ => ?_
    exact draws_pure rfl
  · refine (draws_expect ";").bind fun _ => ?_
    exact draws_pure rfl

private theorem draws_statement {block : BlockReader} (h : BlockDraws block) :
    Draws [] (statement block) Statement.ids := by
  refine (draws_sees "LET").bind fun _ => Draws.ite (Draws.map draws_declaration) ?_
  refine (draws_accept "IF").bind fun _ => Draws.ite (draws_ifStatement h) ?_
  refine (draws_accept "FOR").bind fun _ => Draws.ite (draws_forStatement h) ?_
  refine (draws_accept "WHILE").bind fun _ => Draws.ite (draws_whileStatement h) ?_
  exact (draws_accept "RETURN").bind fun _ => Draws.ite draws_returnStatement draws_plainStatement

/-- Statements draw one after the other. -/
private theorem draws_statements {item : Parse Statement} (h : Draws [] item Statement.ids)
    (first : String) (others : List String) (n : Nat) (done : List Statement) :
    Draws (Statement.idsAll done.reverse) (statements item first others n done)
      Statement.idsAll := by
  induction n generalizing done with
  | zero => exact draws_fail _
  | succ n ih =>
    refine (draws_seesAny _).bind fun _ => Draws.ite (draws_pure rfl) ?_
    refine draws_peek.bind fun t => ?_
    cases t with
    | none => exact draws_fail _
    | some t =>
      refine h.append.bind fun s => ?_
      -- The ids of the new statement come behind those of the statements before.
      have := ih (s :: done)
      rw [Statement.idsAll_eq_flatMap, List.reverse_cons, List.flatMap_append,
        List.flatMap_singleton, ← Statement.idsAll_eq_flatMap] at this
      exact this

/-- Blocks within any depth, by induction on the depth that is left. -/
private theorem draws_blockWithin (n : Nat) : BlockDraws (blockWithin n) := by
  induction n with
  | zero => exact fun _ _ _ => draws_fail _
  | succ n ih =>
    intro before first others
    refine Draws.append (Draws.restoringDepth ?_)
    refine draws_enter.bind fun _ => draws_remaining.bind fun k => ?_
    exact draws_statements (draws_statement ih) first others (k + 1) []

/-! ### Programs -/

private theorem draws_parameters : Draws before parameters (fun _ => before) := by
  have hitem : Draws [] parameter (fun _ => []) :=
    draws_identifier.bind fun _ => draws_annotation.bind fun _ => draws_pure rfl
  refine (draws_sees ")").bind fun _ => Draws.ite (draws_pure rfl) ?_
  -- Parameters are no nodes.
  have hnone : ∀ l : List Parameter, l.flatMap (fun _ => ([] : List NodeId)) = [] := by simp
  have := @draws_commaList _ before _ _ hitem
  simpa only [hnone, List.append_nil] using this

/-- A method draws its own id last. -/
private theorem draws_method : Draws [] method Method.ids := by
  refine (draws_expect "DEF").bind fun _ => draws_identifier.bind fun name => ?_
  refine (draws_expect "(").bind fun _ => draws_parameters.bind fun parameters => ?_
  refine (draws_expect ")").bind fun _ => draws_annotation.bind fun returnTypeName => ?_
  refine (draws_expect "DO").bind fun _ => ?_
  refine (draws_blockWithin (maxNesting + 1) _ _ _).bind fun body => ?_
  refine (draws_expect "END").bind fun _ => draws_fresh.bind fun id => ?_
  exact draws_pure rfl

/-- A program draws item by item. -/
private theorem draws_source : Draws [] source Source.ids := by
  refine (draws_manyAt "LET" draws_declaration).bind fun fields => ?_
  refine (draws_manyAt "DEF" draws_method).bind fun methods => draws_peek.bind fun t => ?_
  cases t with
  | none => exact draws_pure rfl
  | some t => exact draws_fail _

end Rules

end Parse

/-- The nodes of a parsed program are numbered in order, from 0 on. -/
theorem ids_parse {tokens : List Token} {source : Source} (h : parse tokens = .ok source) :
    source.ids = List.range source.ids.length := by
  have hdraws := Parse.draws_source (Cursor.start tokens)
  unfold parse at h
  unfold Ends at hdraws
  cases hrun : Parse.source (Cursor.start tokens) with
  | error e c => rw [hrun] at h; exact nomatch h
  | ok s c =>
    rw [hrun] at h hdraws
    cases h
    -- Nothing was drawn before, so the numbers drawn are those of the tree.
    obtain ⟨l, hl, hd⟩ := hdraws
    rw [List.nil_append] at hl
    rw [hl, List.range_eq_range']
    exact hd.eq_range

/-- No two nodes of a parsed program have one number. -/
theorem nodup_ids_parse {tokens : List Token} {source : Source}
    (h : parse tokens = .ok source) : source.ids.Nodup := by
  rw [ids_parse h]
  exact List.nodup_range

end LetLang
