import LetLang.Syntax
import LetLang.Parser.Cursor
import LetLang.Proofs.Lexemes
import Mathlib.Data.List.Forall2

/-! # What a program is written with

The grammar read from the tree to the text: `Source.Yields s ys` says that the program `s` is
written with the terminals `ys`, from left to right.  A terminal is a keyword, a name, a sign or
a literal, and `Terminal.Matches` says which tokens there are for it.

Not every tree is one that the grammar has: `Expr.isNormal` says that operators bind as their
levels tell, so that a tree with other operands needs parentheses.

`Expr.cost` counts how far an expression nests in the sense of `maxNesting`.  The operators of
one chain, and the dots of one chain, count from the left end of the chain on. -/

namespace LetLang

/-! ## Terminals -/

/-- What the rules of the grammar come down to. -/
inductive Terminal where
  | keyword (word : String)
  | name (name : String)
  | sign (sign : String)
  | literal (value : Literal)
deriving DecidableEq, Repr

/-- The token is one for the terminal.  For a literal that is a token with any lexeme that
    stands for its value. -/
def Terminal.Matches : Terminal → Token → Prop
  | keyword w, t => t.kind = .identifier ∧ t.lexeme = w
  | name n, t => t.kind = .identifier ∧ t.lexeme = n
  | sign s, t => t.kind = .operator ∧ t.lexeme = s
  | literal v, t => v.Spelled t.kind t.lexeme.toList

/-- `AND` and `OR` are words, the other operators are signs. -/
def Operator.terminal (o : Operator) : Terminal :=
  match o with
  | .and | .or => .keyword o.symbol
  | _ => .sign o.symbol

/-- Items one after another, with commas between them. -/
def separated {α : Type} (terminals : α → List Terminal) : List α → List Terminal
  | [] => []
  | a :: rest => terminals a ++ rest.flatMap fun b => .sign "," :: terminals b

/-! ## Expressions -/

mutual

/-- The terminals of an expression. -/
def Expr.terminals : Expr → List Terminal
  | .literal _ value => [.literal value]
  | .group _ inner => .sign "(" :: (inner.terminals ++ [.sign ")"])
  | .binary _ operator left right => left.terminals ++ operator.terminal :: right.terminals
  | .var _ name => [.name name]
  | .field _ receiver name => receiver.terminals ++ [.sign ".", .name name]
  | .call _ name items => .name name :: .sign "(" :: (Expr.listTerminals items ++ [.sign ")"])
  | .invoke _ receiver name items =>
    receiver.terminals ++
      .sign "." :: .name name :: .sign "(" :: (Expr.listTerminals items ++ [.sign ")"])

/-- The terminals of the arguments of a call. -/
def Expr.listTerminals : List Expr → List Terminal
  | [] => []
  | e :: rest => e.terminals ++ Expr.moreTerminals rest

/-- The terminals of further arguments, each behind a comma. -/
def Expr.moreTerminals : List Expr → List Terminal
  | [] => []
  | e :: rest => .sign "," :: (e.terminals ++ Expr.moreTerminals rest)

end

/-- Arguments are separated by commas. -/
theorem Expr.listTerminals_eq (items : List Expr) :
    Expr.listTerminals items = separated Expr.terminals items := by
  have hmore : ∀ l : List Expr,
      Expr.moreTerminals l = l.flatMap fun e => .sign "," :: e.terminals := by
    intro l
    induction l with
    | nil => rfl
    | cons e rest ih => rw [Expr.moreTerminals, ih, List.flatMap_cons, List.cons_append]
  cases items with
  | nil => rfl
  | cons e rest => rw [Expr.listTerminals, separated, hmore]

/-- How tightly a level binds. -/
def Level.rank : Level → Nat
  | logical => 0
  | comparison => 1
  | additive => 2
  | multiplicative => 3

/-- How tightly the parts of an expression are bound together; only operators bind loosely. -/
def Expr.rank : Expr → Nat
  | .binary _ operator _ _ => operator.level.rank
  | _ => 4

theorem Level.rank_lt (l : Level) : l.rank < 4 := by
  cases l <;> decide

/-- Levels are told apart by their rank. -/
theorem Level.rank_inj {l l' : Level} (h : l.rank = l'.rank) : l = l' := by
  revert h
  cases l <;> cases l' <;> decide

/-- Only an expression without an operator is bound as tightly as can be. -/
theorem Expr.isBinary_eq_false_iff (e : Expr) : e.isBinary = false ↔ 4 ≤ e.rank := by
  cases e with
  | binary id o left right =>
    have := o.level.rank_lt
    simp only [Expr.isBinary, Expr.rank, Bool.true_eq_false, false_iff]
    omega
  | _ => simp [Expr.isBinary, Expr.rank]

mutual

/-- Whether all operators in an expression bind as their levels tell: a left operand at least
    as tight as the operator, a right operand tighter, and no operator in front of a dot. -/
def Expr.isNormal : Expr → Bool
  | .literal .. | .var .. => true
  | .group _ inner => inner.isNormal
  | .binary _ operator left right =>
    decide (operator.level.rank ≤ left.rank) && decide (operator.level.rank < right.rank) &&
      left.isNormal && right.isNormal
  | .field _ receiver _ => !receiver.isBinary && receiver.isNormal
  | .call _ _ items => Expr.listNormal items
  | .invoke _ receiver _ items => !receiver.isBinary && receiver.isNormal && Expr.listNormal items

/-- Whether the operators in all of the expressions bind as their levels tell. -/
def Expr.listNormal : List Expr → Bool
  | [] => true
  | e :: rest => e.isNormal && Expr.listNormal rest

end

/-- Arguments are in normal form if each of them is. -/
theorem Expr.listNormal_iff (items : List Expr) :
    Expr.listNormal items = true ↔ ∀ e ∈ items, e.isNormal = true := by
  induction items with
  | nil => simp [Expr.listNormal]
  | cons e rest ih => simp [Expr.listNormal, ih]

/-! ## How far an expression nests -/

/-- How many operators of the given level stand in a row at the right end of the expression's
    chain: the expression itself, its left operand, and so on. -/
def Expr.links (level : Level) : Expr → Nat
  | .binary _ operator left _ => if operator.level = level then left.links level + 1 else 0
  | _ => 0

/-- How many dots stand in a row in front of the end of the expression. -/
def Expr.dots : Expr → Nat
  | .field _ receiver _ | .invoke _ receiver _ _ => receiver.dots + 1
  | _ => 0

mutual

/-- How many levels an expression nests below the one at which it stands. -/
def Expr.cost : Expr → Nat
  | .literal .. | .var .. => 0
  | .group _ inner => 1 + inner.cost
  | .binary _ operator left right =>
    max left.cost (left.links operator.level + 1 + right.cost)
  | .field _ receiver _ => max receiver.cost (receiver.dots + 1)
  | .call _ _ items => Expr.listCost items
  | .invoke _ receiver _ items => max receiver.cost (receiver.dots + 1 + Expr.listCost items)

/-- How many levels the arguments of a call nest; each of them is one level itself. -/
def Expr.listCost : List Expr → Nat
  | [] => 0
  | e :: rest => max (1 + e.cost) (Expr.listCost rest)

end

/-- Every argument is one level deeper than the call. -/
theorem Expr.listCost_le_iff (items : List Expr) (n : Nat) :
    Expr.listCost items ≤ n ↔ ∀ e ∈ items, 1 + e.cost ≤ n := by
  induction items with
  | nil => simp [Expr.listCost]
  | cons e rest ih => simp [Expr.listCost, Nat.max_le, ih]

/-- Only an operator of the level itself continues a chain of that level. -/
theorem Expr.links_eq_zero {level : Level} {e : Expr} (h : level.rank < e.rank) :
    e.links level = 0 := by
  cases e with
  | binary id o left right =>
    have hne : o.level ≠ level := by
      rintro rfl
      simp [Expr.rank] at h
    simp [Expr.links, hne]
  | _ => rfl

/-- An expression that does not continue a chain of a level is bound more tightly. -/
theorem Expr.rank_lt_of_links {level : Level} {e : Expr} (h : e.links level = 0)
    (hrank : level.rank ≤ e.rank) : level.rank < e.rank := by
  cases e with
  | binary id o left right =>
    have hne : level.rank ≠ o.level.rank := by
      intro heq
      simp [Expr.links, Level.rank_inj heq] at h
    exact Nat.lt_of_le_of_ne hrank hne
  | _ => exact level.rank_lt

/-! ## Declarations and statements -/

/-- The terminals of a type annotation. -/
def annotationTerminals : Option String → List Terminal
  | none => []
  | some type => [.sign ":", .name type]

/-- The terminals of an initial value. -/
def initialTerminals : Option Expr → List Terminal
  | none => []
  | some e => .sign "=" :: e.terminals

/-- The terminals of a declaration. -/
def Declaration.terminals (d : Declaration) : List Terminal :=
  .keyword "LET" :: .name d.name ::
    (annotationTerminals d.typeName ++ (initialTerminals d.initializer ++ [.sign ";"]))

mutual

/-- The statement is written with the terminals. -/
inductive Statement.Yields : Statement → List Terminal → Prop where
  | expression {e : Expr} : Yields (.expression e) (e.terminals ++ [.sign ";"])
  | declare {d : Declaration} : Yields (.declare d) d.terminals
  | assign {target value : Expr} :
    Yields (.assign target value)
      (target.terminals ++ .sign "=" :: (value.terminals ++ [.sign ";"]))
  | ifElse {condition : Expr} {thenBody elseBody : List Statement} {ys zs : List Terminal} :
    Statement.YieldsAll thenBody ys → Statement.YieldsElse elseBody zs →
    Yields (.ifElse condition thenBody elseBody)
      (.keyword "IF" :: (condition.terminals ++
        .keyword "DO" :: (ys ++ (zs ++ [.keyword "END"]))))
  | forIn {name : String} {iterable : Expr} {body : List Statement} {ys : List Terminal} :
    Statement.YieldsAll body ys →
    Yields (.forIn name iterable body)
      (.keyword "FOR" :: .name name :: .keyword "IN" :: (iterable.terminals ++
        .keyword "DO" :: (ys ++ [.keyword "END"])))
  | whileDo {condition : Expr} {body : List Statement} {ys : List Terminal} :
    Statement.YieldsAll body ys →
    Yields (.whileDo condition body)
      (.keyword "WHILE" :: (condition.terminals ++ .keyword "DO" :: (ys ++ [.keyword "END"])))
  | returns {e : Expr} :
    Yields (.returns e) (.keyword "RETURN" :: (e.terminals ++ [.sign ";"]))

/-- The second body of an `IF` is written with the terminals; if it is empty, `ELSE` may be left
    out. -/
inductive Statement.YieldsElse : List Statement → List Terminal → Prop where
  | absent : YieldsElse [] []
  | present {body : List Statement} {ys : List Terminal} :
    Statement.YieldsAll body ys → YieldsElse body (.keyword "ELSE" :: ys)

/-- The statements are written with the terminals, one after another. -/
inductive Statement.YieldsAll : List Statement → List Terminal → Prop where
  | nil : YieldsAll [] []
  | cons {s : Statement} {rest : List Statement} {ys zs : List Terminal} :
    Statement.Yields s ys → YieldsAll rest zs → YieldsAll (s :: rest) (ys ++ zs)

end

/-- A statement has at least one terminal. -/
theorem Statement.Yields.ne_nil {s : Statement} {ys : List Terminal} (h : s.Yields ys) :
    ys ≠ [] := by
  cases h <;> simp [Declaration.terminals]

/-- One more statement at the end. -/
theorem Statement.YieldsAll.concat {body : List Statement} {s : Statement}
    {ys zs : List Terminal} (h : Statement.YieldsAll body ys) (hs : s.Yields zs) :
    Statement.YieldsAll (body ++ [s]) (ys ++ zs) := by
  induction body generalizing ys with
  | nil =>
    cases h
    simpa using Statement.YieldsAll.cons hs .nil
  | cons s' rest ih =>
    cases h with
    | cons hfirst hrest =>
      rw [List.append_assoc]
      exact .cons hfirst (ih hrest)

mutual

/-- The expressions of a statement that are not part of another expression. -/
def Statement.exprs : Statement → List Expr
  | .expression e => [e]
  | .declare d => d.initializer.toList
  | .assign target value => [target, value]
  | .ifElse condition thenBody elseBody =>
    condition :: (Statement.listExprs thenBody ++ Statement.listExprs elseBody)
  | .forIn _ iterable body => iterable :: Statement.listExprs body
  | .whileDo condition body => condition :: Statement.listExprs body
  | .returns e => [e]

/-- The expressions of statements that are not part of another expression. -/
def Statement.listExprs : List Statement → List Expr
  | [] => []
  | s :: rest => s.exprs ++ Statement.listExprs rest

end

/-- The expressions of statements are listed in order. -/
theorem Statement.listExprs_append (body body' : List Statement) :
    Statement.listExprs (body ++ body') =
      Statement.listExprs body ++ Statement.listExprs body' := by
  induction body with
  | nil => rfl
  | cons s rest ih => simp [Statement.listExprs, ih]

/-- How many levels an initial value nests; an expression is one level itself. -/
def initialCost : Option Expr → Nat
  | none => 0
  | some e => 1 + e.cost

mutual

/-- How many levels a statement nests below the one at which it stands.  Every expression and
    every block is one level. -/
def Statement.cost : Statement → Nat
  | .expression e => 1 + e.cost
  | .declare d => initialCost d.initializer
  | .assign target value => max (1 + target.cost) (1 + value.cost)
  | .ifElse condition thenBody elseBody =>
    max (1 + condition.cost) (max (1 + Statement.listCost thenBody)
      (if elseBody.isEmpty then 0 else 1 + Statement.listCost elseBody))
  | .forIn _ iterable body => max (1 + iterable.cost) (1 + Statement.listCost body)
  | .whileDo condition body => max (1 + condition.cost) (1 + Statement.listCost body)
  | .returns e => 1 + e.cost

/-- How many levels the statements of a block nest. -/
def Statement.listCost : List Statement → Nat
  | [] => 0
  | s :: rest => max s.cost (Statement.listCost rest)

end

/-- An empty second body nests no further than the first one. -/
theorem Statement.ifElse_cost_le_iff (condition : Expr) (thenBody elseBody : List Statement)
    (n : Nat) :
    (Statement.ifElse condition thenBody elseBody).cost ≤ n ↔ 1 + condition.cost ≤ n ∧
      1 + Statement.listCost thenBody ≤ n ∧ 1 + Statement.listCost elseBody ≤ n := by
  cases elseBody with
  | nil =>
    simp only [Statement.cost, Statement.listCost, List.isEmpty_nil, if_true]
    omega
  | cons s rest =>
    simp only [Statement.cost, List.isEmpty_cons, Bool.false_eq_true, if_false]
    omega

/-- A block costs what its most expensive statement costs. -/
theorem Statement.listCost_append (body body' : List Statement) :
    Statement.listCost (body ++ body') =
      max (Statement.listCost body) (Statement.listCost body') := by
  induction body with
  | nil => simp [Statement.listCost]
  | cons s rest ih => simp [Statement.listCost, ih, Nat.max_assoc]

/-! ## Programs -/

/-- The terminals of a parameter. -/
def Parameter.terminals (p : Parameter) : List Terminal :=
  .name p.name :: annotationTerminals p.typeName

/-- The method is written with the terminals. -/
inductive Method.Yields : Method → List Terminal → Prop where
  | intro {m : Method} {ys : List Terminal} : Statement.YieldsAll m.body ys →
    Yields m (.keyword "DEF" :: .name m.name :: .sign "(" ::
      (separated Parameter.terminals m.parameters ++ .sign ")" ::
        (annotationTerminals m.returnTypeName ++ .keyword "DO" :: (ys ++ [.keyword "END"]))))

/-- The program is written with the terminals. -/
inductive Source.Yields : Source → List Terminal → Prop where
  | intro {s : Source} {yss : List (List Terminal)} : List.Forall₂ Method.Yields s.methods yss →
    Yields s (s.fields.flatMap Declaration.terminals ++ yss.flatten)

/-- The expressions of a program that are not part of another expression. -/
def Source.exprs (s : Source) : List Expr :=
  s.fields.flatMap (·.initializer.toList) ++ s.methods.flatMap fun m => Statement.listExprs m.body

/-- How many levels a method nests. -/
def Method.cost (m : Method) : Nat := 1 + Statement.listCost m.body

/-- How many levels a program nests. -/
def Source.cost (s : Source) : Nat :=
  max ((s.fields.map fun d => initialCost d.initializer).foldr max 0)
    ((s.methods.map Method.cost).foldr max 0)

/-- The greatest of some numbers is bounded if all of them are. -/
theorem foldr_max_le_iff (l : List Nat) (n : Nat) : l.foldr max 0 ≤ n ↔ ∀ k ∈ l, k ≤ n := by
  induction l with
  | nil => simp
  | cons k rest ih => simp [Nat.max_le, ih]

/-- A program costs what its most expensive field or method costs. -/
theorem Source.cost_le_iff (s : Source) (n : Nat) :
    s.cost ≤ n ↔ (∀ d ∈ s.fields, initialCost d.initializer ≤ n) ∧ ∀ m ∈ s.methods, m.cost ≤ n := by
  simp [Source.cost, Nat.max_le, foldr_max_le_iff]

end LetLang
