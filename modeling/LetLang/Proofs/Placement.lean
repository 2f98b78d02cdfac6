import LetLang.Proofs.Numbering

/-! # Where the nodes of a program stand

The nodes of a program are its expressions, its declarations and its methods.  `Source.Stands`
reads a list of tokens by the grammar and says at which of them each node stands: a `Place` is a
node with the tokens from `start` up to `stop`.  Words and signs may be spelled by any token that
passes for them, so this is a matter of the tree and the tokens alone.

* `Node.inside`, `Source.allNodes`   the nodes inside a node, and all of a program
* `Arranged`                         the nodes have their tokens in order: of two of them, the
  earlier one is inside the later one or stands before it
* `Source.Stands.arranged`           so it is in every program -/

namespace LetLang

/-! ## Nodes -/

/-- What carries a number. -/
inductive Node where
  | expression (e : Expr)
  | declaration (d : Declaration)
  | method (m : Method)

/-- The number of the node. -/
def Node.id : Node → NodeId
  | expression e => e.id
  | declaration d => d.id
  | method m => m.id

/-- The expressions inside an expression, without itself. -/
def Expr.inner : Expr → List Expr
  | .literal .. | .var .. => []
  | .group _ inner => inner.nodes
  | .binary _ _ left right => left.nodes ++ right.nodes
  | .field _ receiver _ => receiver.nodes
  | .call _ _ items => Expr.nodesAll items
  | .invoke _ receiver _ items => receiver.nodes ++ Expr.nodesAll items

/-- The expression itself comes last among its nodes. -/
theorem Expr.nodes_eq (e : Expr) : e.nodes = e.inner ++ [e] := by
  cases e <;> rfl

/-- The nodes of an expression. -/
def Expr.allNodes (e : Expr) : List Node := e.nodes.map .expression

/-- The nodes of a declaration. -/
def Declaration.allNodes (d : Declaration) : List Node :=
  d.initializer.elim [] Expr.allNodes ++ [.declaration d]

mutual

/-- The nodes of a statement, which is none itself. -/
def Statement.allNodes : Statement → List Node
  | .expression value => value.allNodes
  | .declare d => d.allNodes
  | .assign target value => target.allNodes ++ value.allNodes
  | .ifElse condition thenBody elseBody =>
    condition.allNodes ++ Statement.listAllNodes thenBody ++ Statement.listAllNodes elseBody
  | .forIn _ iterable body => iterable.allNodes ++ Statement.listAllNodes body
  | .whileDo condition body => condition.allNodes ++ Statement.listAllNodes body
  | .returns value => value.allNodes

/-- The nodes of statements. -/
def Statement.listAllNodes : List Statement → List Node
  | [] => []
  | s :: rest => s.allNodes ++ Statement.listAllNodes rest

end

/-- The nodes of a method. -/
def Method.allNodes (m : Method) : List Node := Statement.listAllNodes m.body ++ [.method m]

/-- The nodes of a program. -/
def Source.allNodes (s : Source) : List Node :=
  s.fields.flatMap Declaration.allNodes ++ s.methods.flatMap Method.allNodes

namespace Node

/-- The nodes inside a node, without itself. -/
def inside : Node → List Node
  | expression e => e.inner.map .expression
  | declaration d => d.initializer.elim [] Expr.allNodes
  | method m => Statement.listAllNodes m.body

/-- The nodes inside a node, and the node itself behind them. -/
def subtree (n : Node) : List Node := n.inside ++ [n]

@[simp] theorem subtree_expression (e : Expr) : (expression e).subtree = e.allNodes := by
  simp [subtree, inside, Expr.allNodes, e.nodes_eq]

@[simp] theorem subtree_declaration (d : Declaration) :
    (declaration d).subtree = d.allNodes := rfl

@[simp] theorem subtree_method (m : Method) : (method m).subtree = m.allNodes := rfl

end Node

private theorem Expr.nodesAll_eq_flatMap (items : List Expr) :
    (Expr.nodesAll items).map .expression = items.flatMap Expr.allNodes := by
  induction items with
  | nil => rfl
  | cons e rest ih => rw [Expr.nodesAll, List.map_append, ih, List.flatMap_cons, Expr.allNodes]

private theorem Statement.listAllNodes_eq_flatMap (body : List Statement) :
    Statement.listAllNodes body = body.flatMap Statement.allNodes := by
  induction body with
  | nil => rfl
  | cons s rest ih => rw [Statement.listAllNodes, ih, List.flatMap_cons]

/-! ### Their numbers -/

/-- The ids of the nodes of an expression, in the order of the listing. -/
@[simp] theorem Expr.map_id_allNodes (e : Expr) : e.allNodes.map Node.id = e.ids := by
  rw [Expr.allNodes, List.map_map, Expr.ids_eq_map]
  rfl

/-- The ids of the nodes of a declaration, in the order of the listing. -/
@[simp] theorem Declaration.map_id_allNodes (d : Declaration) :
    d.allNodes.map Node.id = d.ids := by
  cases h : d.initializer <;> simp [Declaration.allNodes, Declaration.ids, h, Node.id]

mutual

/-- The ids of the nodes of a statement, in the order of the listing. -/
theorem Statement.map_id_allNodes : ∀ s : Statement, s.allNodes.map Node.id = s.ids
  | .expression _ | .declare _ | .assign .. | .returns _ => by
    simp [Statement.allNodes, Statement.ids]
  | .ifElse _ thenBody elseBody => by
    simp [Statement.allNodes, Statement.ids, Statement.map_id_listAllNodes thenBody,
      Statement.map_id_listAllNodes elseBody]
  | .forIn _ _ body | .whileDo _ body => by
    simp [Statement.allNodes, Statement.ids, Statement.map_id_listAllNodes body]

private theorem Statement.map_id_listAllNodes : ∀ body : List Statement,
    (Statement.listAllNodes body).map Node.id = Statement.idsAll body
  | [] => rfl
  | s :: rest => by
    simp [Statement.listAllNodes, Statement.idsAll, Statement.map_id_allNodes s,
      Statement.map_id_listAllNodes rest]

end

/-- The ids of the nodes of a method, in the order of the listing. -/
theorem Method.map_id_allNodes (m : Method) : m.allNodes.map Node.id = m.ids := by
  simp [Method.allNodes, Method.ids, Statement.map_id_listAllNodes, Node.id]

/-- The nodes of a program carry its ids in order. -/
theorem Source.map_id_allNodes (s : Source) : s.allNodes.map Node.id = s.ids := by
  simp only [Source.allNodes, Source.ids, List.map_append, List.map_flatMap,
    Declaration.map_id_allNodes, Method.map_id_allNodes]

/-! ### What is inside comes first -/

/-- With each of its nodes the list has those inside it, and before it. -/
def Closed (nodes : List Node) : Prop := ∀ n ∈ nodes, n.subtree.Sublist nodes

private theorem closed_nil : Closed [] := fun _ h => nomatch h

/-- Two closed listings make a closed one. -/
theorem Closed.append {nodes nodes' : List Node} (h : Closed nodes) (h' : Closed nodes') :
    Closed (nodes ++ nodes') := by
  intro n hn
  obtain hn | hn := List.mem_append.mp hn
  · exact (h n hn).trans (List.sublist_append_left ..)
  · exact (h' n hn).trans (List.sublist_append_right ..)

/-- Closed listings in a row make a closed one. -/
private theorem closed_flatMap {α : Type} {f : α → List Node} {l : List α}
    (h : ∀ a ∈ l, Closed (f a)) :
    Closed (l.flatMap f) := by
  induction l with
  | nil => exact closed_nil
  | cons a l ih =>
    rw [List.flatMap_cons]
    exact (h a List.mem_cons_self).append (ih fun b hb => h b (List.mem_cons_of_mem a hb))

/-- A node behind the closed listing of its inside. -/
private theorem Closed.subtree {n : Node} (h : Closed n.inside) : Closed n.subtree := by
  intro m hm
  obtain hm | hm := List.mem_append.mp hm
  · exact (h m hm).trans (List.sublist_append_left ..)
  · obtain rfl := List.mem_singleton.mp hm
    exact List.Sublist.refl _

/-- The nodes inside a node of an expression stand in front of it. -/
theorem Expr.closed_allNodes : ∀ e : Expr, Closed e.allNodes
  | .literal .. | .var .. => by
    rw [← Node.subtree_expression]
    exact Closed.subtree closed_nil
  | .group _ inner | .field _ inner _ => by
    rw [← Node.subtree_expression]
    exact Closed.subtree (Expr.closed_allNodes inner)
  | .binary _ _ left right => by
    rw [← Node.subtree_expression]
    refine Closed.subtree ?_
    simp only [Node.inside, Expr.inner, List.map_append]
    exact (Expr.closed_allNodes left).append (Expr.closed_allNodes right)
  | .call _ _ items => by
    rw [← Node.subtree_expression]
    refine Closed.subtree ?_
    simp only [Node.inside, Expr.inner, Expr.nodesAll_eq_flatMap]
    exact closed_flatMap fun e _ => Expr.closed_allNodes e
  | .invoke _ receiver _ items => by
    rw [← Node.subtree_expression]
    refine Closed.subtree ?_
    simp only [Node.inside, Expr.inner, List.map_append, Expr.nodesAll_eq_flatMap]
    exact (Expr.closed_allNodes receiver).append (closed_flatMap fun e _ => Expr.closed_allNodes e)

/-- The nodes inside a node of a declaration stand in front of it. -/
theorem Declaration.closed_allNodes (d : Declaration) : Closed d.allNodes := by
  rw [← Node.subtree_declaration]
  refine Closed.subtree ?_
  rw [Node.inside]
  cases d.initializer with
  | none => exact closed_nil
  | some e => exact e.closed_allNodes

/-- The nodes inside a node of a statement stand in front of it. -/
theorem Statement.closed_allNodes : ∀ s : Statement, Closed s.allNodes
  | .expression e | .returns e => e.closed_allNodes
  | .declare d => d.closed_allNodes
  | .assign target value => target.closed_allNodes.append value.closed_allNodes
  -- A statement has no node of its own; its nodes are those of its expressions and blocks.
  | .ifElse condition thenBody elseBody => by
    simp only [Statement.allNodes, Statement.listAllNodes_eq_flatMap]
    exact (condition.closed_allNodes.append
      (closed_flatMap fun s _ => Statement.closed_allNodes s)).append
      (closed_flatMap fun s _ => Statement.closed_allNodes s)
  | .forIn _ e body | .whileDo e body => by
    simp only [Statement.allNodes, Statement.listAllNodes_eq_flatMap]
    exact e.closed_allNodes.append (closed_flatMap fun s _ => Statement.closed_allNodes s)

/-- The nodes inside a node of a method stand in front of it. -/
theorem Method.closed_allNodes (m : Method) : Closed m.allNodes := by
  rw [← Node.subtree_method]
  refine Closed.subtree ?_
  rw [Node.inside, Statement.listAllNodes_eq_flatMap]
  exact closed_flatMap fun s _ => s.closed_allNodes

/-- With every node the listing of a program has the nodes inside it, in front of it. -/
theorem Source.closed_allNodes (s : Source) : Closed s.allNodes :=
  (closed_flatMap fun d _ => d.closed_allNodes).append
    (closed_flatMap fun m _ => m.closed_allNodes)

/-! ## Places -/

/-- A node and its tokens, from the number `start` up to, and without, the number `stop`. -/
structure Place where
  node : Node
  start : Nat
  stop : Nat

section Tokens

variable (tokens : List Token)

/-- The token with the number `i` passes for the word or sign. -/
def SpellsAt (i : Nat) (lexeme : String) : Prop :=
  ∃ t, tokens[i]? = some t ∧ t.spells lexeme = true

/-- The token with the number `i` is the name. -/
def NameAt (i : Nat) (name : String) : Prop :=
  ∃ t, tokens[i]? = some t ∧ t.kind = .identifier ∧ t.lexeme = name

/-- The token with the number `i` stands for the value. -/
def LiteralAt (i : Nat) (value : Literal) : Prop :=
  ∃ t, tokens[i]? = some t ∧ Literal.ofToken? t = some value

/-- What stands at the tokens from `i` up to `j`, and its nodes where the places tell. -/
abbrev Standing (α : Type) := α → (i j : Nat) → List Place → Prop

/-- One item behind the other. -/
inductive InRow {α : Type} (P : Standing α) : Standing (List α) where
  | nil {i : Nat} : InRow P [] i i []
  | snoc {items : List α} {a : α} {i j k : Nat} {ps qs : List Place} :
    InRow P items i j ps → P a j k qs → InRow P (items ++ [a]) i k (ps ++ qs)

/-- One or more items with commas between them. -/
inductive Separated {α : Type} (P : Standing α) : Standing (List α) where
  | one {a : α} {i j : Nat} {ps : List Place} : P a i j ps → Separated P [a] i j ps
  | snoc {items : List α} {a : α} {i j k : Nat} {ps qs : List Place} :
    Separated P items i j ps → SpellsAt tokens j "," → P a (j + 1) k qs →
    Separated P (items ++ [a]) i k (ps ++ qs)

/-- The items of a list in parentheses, which may be empty. -/
inductive Enclosed {α : Type} (P : Standing α) : Standing (List α) where
  | none {i : Nat} : SpellsAt tokens i "(" → SpellsAt tokens (i + 1) ")" →
    Enclosed P [] i (i + 2) []
  | some {items : List α} {i j : Nat} {ps : List Place} : SpellsAt tokens i "(" →
    Separated tokens P items (i + 1) j ps → SpellsAt tokens j ")" → Enclosed P items i (j + 1) ps

/-- Where an expression stands.  Its own place is the last one. -/
inductive Expr.Stands : Standing Expr where
  | literal {id : NodeId} {value : Literal} {i : Nat} : LiteralAt tokens i value →
    Stands (.literal id value) i (i + 1) [⟨.expression (.literal id value), i, i + 1⟩]
  | group {id : NodeId} {inner : Expr} {i j : Nat} {ps : List Place} : SpellsAt tokens i "(" →
    Stands inner (i + 1) j ps → SpellsAt tokens j ")" →
    Stands (.group id inner) i (j + 1) (ps ++ [⟨.expression (.group id inner), i, j + 1⟩])
  | binary {id : NodeId} {o : Operator} {left right : Expr} {i j k : Nat} {ps qs : List Place} :
    Stands left i j ps → SpellsAt tokens j o.symbol → Stands right (j + 1) k qs →
    Stands (.binary id o left right) i k
      (ps ++ qs ++ [⟨.expression (.binary id o left right), i, k⟩])
  | var {id : NodeId} {name : String} {i : Nat} : NameAt tokens i name →
    Stands (.var id name) i (i + 1) [⟨.expression (.var id name), i, i + 1⟩]
  | field {id : NodeId} {receiver : Expr} {name : String} {i j : Nat} {ps : List Place} :
    Stands receiver i j ps → SpellsAt tokens j "." → NameAt tokens (j + 1) name →
    Stands (.field id receiver name) i (j + 2)
      (ps ++ [⟨.expression (.field id receiver name), i, j + 2⟩])
  | call {id : NodeId} {name : String} {items : List Expr} {i j : Nat} {ps : List Place} :
    NameAt tokens i name → Enclosed tokens Stands items (i + 1) j ps →
    Stands (.call id name items) i j (ps ++ [⟨.expression (.call id name items), i, j⟩])
  | invoke {id : NodeId} {receiver : Expr} {name : String} {items : List Expr} {i j k : Nat}
      {ps qs : List Place} :
    Stands receiver i j ps → SpellsAt tokens j "." → NameAt tokens (j + 1) name →
    Enclosed tokens Stands items (j + 2) k qs →
    Stands (.invoke id receiver name items) i k
      (ps ++ qs ++ [⟨.expression (.invoke id receiver name items), i, k⟩])

/-- Where a type annotation stands. -/
inductive AnnotationStands : Option String → Nat → Nat → Prop where
  | none {i : Nat} : AnnotationStands none i i
  | some {type : String} {i : Nat} : SpellsAt tokens i ":" → NameAt tokens (i + 1) type →
    AnnotationStands (some type) i (i + 2)

/-- Where an initial value stands. -/
inductive InitialStands : Standing (Option Expr) where
  | none {i : Nat} : InitialStands none i i []
  | some {e : Expr} {i j : Nat} {ps : List Place} : SpellsAt tokens i "=" →
    e.Stands tokens (i + 1) j ps → InitialStands (some e) i j ps

/-- Where a declaration stands. -/
inductive Declaration.Stands : Standing Declaration where
  | intro {d : Declaration} {i j k : Nat} {ps : List Place} : SpellsAt tokens i "LET" →
    NameAt tokens (i + 1) d.name → AnnotationStands tokens d.typeName (i + 2) j →
    InitialStands tokens d.initializer j k ps → SpellsAt tokens k ";" →
    Stands d i (k + 1) (ps ++ [⟨.declaration d, i, k + 1⟩])

/-- Where a statement stands. -/
inductive Statement.Stands : Standing Statement where
  | expression {e : Expr} {i j : Nat} {ps : List Place} : e.Stands tokens i j ps →
    SpellsAt tokens j ";" → Stands (.expression e) i (j + 1) ps
  | declare {d : Declaration} {i j : Nat} {ps : List Place} : d.Stands tokens i j ps →
    Stands (.declare d) i j ps
  | assign {target value : Expr} {i j k : Nat} {ps qs : List Place} :
    target.Stands tokens i j ps → SpellsAt tokens j "=" → value.Stands tokens (j + 1) k qs →
    SpellsAt tokens k ";" → Stands (.assign target value) i (k + 1) (ps ++ qs)
  | ifOnly {condition : Expr} {body : List Statement} {i j k : Nat} {ps qs : List Place} :
    SpellsAt tokens i "IF" → condition.Stands tokens (i + 1) j ps → SpellsAt tokens j "DO" →
    InRow Stands body (j + 1) k qs → SpellsAt tokens k "END" →
    Stands (.ifElse condition body []) i (k + 1) (ps ++ qs)
  | ifElse {condition : Expr} {thenBody elseBody : List Statement} {i j k l : Nat}
      {ps qs rs : List Place} :
    SpellsAt tokens i "IF" → condition.Stands tokens (i + 1) j ps → SpellsAt tokens j "DO" →
    InRow Stands thenBody (j + 1) k qs → SpellsAt tokens k "ELSE" →
    InRow Stands elseBody (k + 1) l rs → SpellsAt tokens l "END" →
    Stands (.ifElse condition thenBody elseBody) i (l + 1) (ps ++ qs ++ rs)
  | forIn {name : String} {iterable : Expr} {body : List Statement} {i j k : Nat}
      {ps qs : List Place} :
    SpellsAt tokens i "FOR" → NameAt tokens (i + 1) name → SpellsAt tokens (i + 2) "IN" →
    iterable.Stands tokens (i + 3) j ps → SpellsAt tokens j "DO" →
    InRow Stands body (j + 1) k qs → SpellsAt tokens k "END" →
    Stands (.forIn name iterable body) i (k + 1) (ps ++ qs)
  | whileDo {condition : Expr} {body : List Statement} {i j k : Nat} {ps qs : List Place} :
    SpellsAt tokens i "WHILE" → condition.Stands tokens (i + 1) j ps → SpellsAt tokens j "DO" →
    InRow Stands body (j + 1) k qs → SpellsAt tokens k "END" →
    Stands (.whileDo condition body) i (k + 1) (ps ++ qs)
  | returns {e : Expr} {i j : Nat} {ps : List Place} : SpellsAt tokens i "RETURN" →
    e.Stands tokens (i + 1) j ps → SpellsAt tokens j ";" → Stands (.returns e) i (j + 1) ps

/-- Where a parameter stands, which is no node. -/
inductive Parameter.Stands : Standing Parameter where
  | intro {p : Parameter} {i j : Nat} : NameAt tokens i p.name →
    AnnotationStands tokens p.typeName (i + 1) j → Stands p i j []

/-- Where a method stands. -/
inductive Method.Stands : Standing Method where
  | intro {m : Method} {i j k l : Nat} {ps qs : List Place} : SpellsAt tokens i "DEF" →
    NameAt tokens (i + 1) m.name →
    Enclosed tokens (Parameter.Stands tokens) m.parameters (i + 2) j ps →
    AnnotationStands tokens m.returnTypeName j k → SpellsAt tokens k "DO" →
    InRow (Statement.Stands tokens) m.body (k + 1) l qs → SpellsAt tokens l "END" →
    Stands m i (l + 1) (ps ++ qs ++ [⟨.method m, i, l + 1⟩])

/-- Where the nodes of a program stand that takes up all of the tokens. -/
inductive Source.Stands : Source → List Place → Prop where
  | intro {s : Source} {j : Nat} {ps qs : List Place} :
    InRow (Declaration.Stands tokens) s.fields 0 j ps →
    InRow (Method.Stands tokens) s.methods j tokens.length qs → Stands s (ps ++ qs)

end Tokens

/-! ## The order of places -/

/-- The places are those of the nodes, in their order and between the tokens `i` and `j`.  Of two
    places, the earlier one belongs to a node inside the other, or it lies before the other. -/
structure Arranged (i j : Nat) (nodes : List Node) (ps : List Place) : Prop where
  nodes_eq : ps.map Place.node = nodes
  le : i ≤ j
  within : ∀ p ∈ ps, i ≤ p.start ∧ p.start < p.stop ∧ p.stop ≤ j
  ordered : ps.Pairwise fun p q => p.node ∈ q.node.inside ∨ p.stop ≤ q.start

namespace Arranged

variable {i j k i' j' : Nat} {nodes nodes' : List Node} {ps qs : List Place}

/-- Nothing stands anywhere. -/
theorem nil (h : i ≤ j) : Arranged i j [] [] := ⟨rfl, h, nofun, .nil⟩

/-- There may be other tokens around. -/
private theorem widen (h : Arranged i j nodes ps) (hi : i' ≤ i) (hj : j ≤ j') :
    Arranged i' j' nodes ps where
  nodes_eq := h.nodes_eq
  le := by have := h.le; omega
  within := by
    intro p hp
    have := h.within p hp
    omega
  ordered := h.ordered

/-- What stands one after the other is arranged in that order. -/
theorem append (h : Arranged i j nodes ps) (h' : Arranged j k nodes' qs) :
    Arranged i k (nodes ++ nodes') (ps ++ qs) where
  nodes_eq := by rw [List.map_append, h.nodes_eq, h'.nodes_eq]
  le := Nat.le_trans h.le h'.le
  within := by
    have hle := h.le
    have hle' := h'.le
    intro p hp
    obtain hp | hp := List.mem_append.mp hp
    · have := h.within p hp
      omega
    · have := h'.within p hp
      omega
  ordered := by
    refine List.pairwise_append.mpr ⟨h.ordered, h'.ordered, ?_⟩
    -- What is on the left ends before `j`, and what is on the right starts behind it.
    intro p hp q hq
    exact .inr (Nat.le_trans (h.within p hp).2.2 (h'.within q hq).1)

/-- A node around all that there is so far. -/
theorem close {n : Node} (h : Arranged i j n.inside ps) (hlt : i < j) :
    Arranged i j n.subtree (ps ++ [⟨n, i, j⟩]) where
  nodes_eq := by rw [List.map_append, h.nodes_eq]; rfl
  le := h.le
  within := by
    intro p hp
    obtain hp | hp := List.mem_append.mp hp
    · exact h.within p hp
    · obtain rfl := List.mem_singleton.mp hp
      exact ⟨Nat.le_refl _, hlt, Nat.le_refl _⟩
  ordered := by
    refine List.pairwise_append.mpr ⟨h.ordered, List.pairwise_singleton .., ?_⟩
    intro p hp q hq
    -- The last place is the one of `n`, and all others are inside.
    obtain rfl := List.mem_singleton.mp hq
    rw [← h.nodes_eq]
    exact .inl (List.mem_map_of_mem hp)

/-- A node with nothing inside. -/
private theorem leaf {n : Node} (hn : n.inside = []) :
    Arranged i (i + 1) n.subtree [⟨n, i, i + 1⟩] := by
  have h : Arranged i (i + 1) n.inside [] := by
    rw [hn]
    exact .nil (Nat.le_succ i)
  exact h.close (Nat.lt_succ_self i)

/-- A node takes up a token. -/
theorem lt (h : Arranged i j nodes ps) (hne : nodes ≠ []) : i < j := by
  obtain ⟨p, hp⟩ : ∃ p, p ∈ ps := by
    apply List.exists_mem_of_ne_nil
    rintro rfl
    exact hne h.nodes_eq.symm
  have := h.within p hp
  omega

end Arranged

section Lists

variable {tokens : List Token} {α : Type} {P : Standing α} {f : α → List Node}
  {items : List α} {i j : Nat} {ps : List Place}

/-- Items in a row are arranged one after the other. -/
theorem InRow.arranged (h : InRow P items i j ps)
    (hP : ∀ a ∈ items, ∀ i j ps, P a i j ps → Arranged i j (f a) ps) :
    Arranged i j (items.flatMap f) ps := by
  induction h with
  | nil => exact .nil (Nat.le_refl _)
  | snoc _ ha ih =>
    rw [List.flatMap_append, List.flatMap_singleton]
    exact (ih fun b hb => hP b (List.mem_append_left _ hb)).append
      (hP _ (List.mem_append_right _ (List.mem_singleton.mpr rfl)) _ _ _ ha)

/-- Commas in between do not matter. -/
theorem Separated.arranged (h : Separated tokens P items i j ps)
    (hP : ∀ a ∈ items, ∀ i j ps, P a i j ps → Arranged i j (f a) ps) :
    Arranged i j (items.flatMap f) ps := by
  induction h with
  | one ha =>
    rw [List.flatMap_singleton]
    exact hP _ (List.mem_singleton.mpr rfl) _ _ _ ha
  | snoc _ _ ha ih =>
    rw [List.flatMap_append, List.flatMap_singleton]
    -- The last item follows the separator, which stands one place further.
    have hlast := hP _ (List.mem_append_right _ (List.mem_singleton.mpr rfl)) _ _ _ ha
    exact (ih fun b hb => hP b (List.mem_append_left _ hb)).append
      (hlast.widen (Nat.le_succ _) (Nat.le_refl _))

/-- Parentheses around the items do not matter. -/
theorem Enclosed.arranged (h : Enclosed tokens P items i j ps)
    (hP : ∀ a ∈ items, ∀ i j ps, P a i j ps → Arranged i j (f a) ps) :
    Arranged i j (items.flatMap f) ps := by
  cases h with
  | none => exact .nil (by omega)
  | some _ hitems => exact (hitems.arranged hP).widen (Nat.le_succ _) (Nat.le_succ _)

end Lists

section Trees

variable {tokens : List Token}

/-- The nodes of an expression are arranged as its places say. -/
theorem Expr.Stands.arranged {e : Expr} {i j : Nat} {ps : List Place}
    (h : e.Stands tokens i j ps) : Arranged i j e.allNodes ps := by
  rw [← Node.subtree_expression]
  -- Every kind of node closes over the places of its parts, widened to its own tokens.
  match e, h with
  | .literal .., .literal _ => exact .leaf rfl
  | .var .., .var _ => exact .leaf rfl
  | .group _ inner, .group _ hinner _ =>
    have hinner := hinner.arranged
    have hle := hinner.le
    exact (hinner.widen (Nat.le_succ _) (Nat.le_succ _)).close (by omega)
  | .field _ receiver _, .field hreceiver _ _ =>
    have hreceiver := hreceiver.arranged
    have hle := hreceiver.le
    exact (hreceiver.widen (Nat.le_refl _) (by omega)).close (by omega)
  | .binary _ _ left right, .binary hleft _ hright =>
    have hleft := hleft.arranged
    have hright := hright.arranged
    have hle := hleft.le
    have hle' := hright.le
    refine Arranged.close ?_ (by omega)
    simp only [Node.inside, Expr.inner, List.map_append]
    exact hleft.append (hright.widen (Nat.le_succ _) (Nat.le_refl _))
  | .call _ _ items, .call _ hitems =>
    have hitems := hitems.arranged fun e _ _ _ _ he => he.arranged
    have hle := hitems.le
    refine Arranged.close ?_ (by omega)
    simp only [Node.inside, Expr.inner, Expr.nodesAll_eq_flatMap]
    exact hitems.widen (Nat.le_succ _) (Nat.le_refl _)
  | .invoke _ receiver _ items, .invoke hreceiver _ _ hitems =>
    have hreceiver := hreceiver.arranged
    have hitems := hitems.arranged fun e _ _ _ _ he => he.arranged
    have hle := hreceiver.le
    have hle' := hitems.le
    refine Arranged.close ?_ (by omega)
    simp only [Node.inside, Expr.inner, List.map_append, Expr.nodesAll_eq_flatMap]
    exact hreceiver.append (hitems.widen (by omega) (Nat.le_refl _))
termination_by sizeOf e

/-- The nodes of an initial value are arranged as its places say. -/
theorem InitialStands.arranged {value : Option Expr} {i j : Nat} {ps : List Place}
    (h : InitialStands tokens value i j ps) : Arranged i j (value.elim [] Expr.allNodes) ps := by
  cases h with
  | none => exact .nil (Nat.le_refl _)
  | some _ he => exact he.arranged.widen (Nat.le_succ _) (Nat.le_refl _)

/-- An annotation has no nodes, so only its length counts. -/
theorem AnnotationStands.le {type : Option String} {i j : Nat}
    (h : AnnotationStands tokens type i j) : i ≤ j := by
  cases h <;> omega

/-- The nodes of a declaration are those of its value and itself. -/
theorem Declaration.Stands.arranged {d : Declaration} {i j : Nat} {ps : List Place}
    (h : d.Stands tokens i j ps) : Arranged i j d.allNodes ps := by
  cases h with
  | intro _ _ htype hvalue _ =>
    have hvalue := hvalue.arranged
    have hle := htype.le
    have hle' := hvalue.le
    exact Arranged.close (n := .declaration d) (hvalue.widen (by omega) (Nat.le_succ _)) (by omega)

/-- The nodes of a statement are arranged part by part. -/
theorem Statement.Stands.arranged {s : Statement} {i j : Nat} {ps : List Place}
    (h : s.Stands tokens i j ps) : Arranged i j s.allNodes ps := by
  cases h with
  | expression he _ => exact he.arranged.widen (Nat.le_refl _) (Nat.le_succ _)
  | declare hd => exact hd.arranged
  | assign htarget _ hvalue _ =>
    exact htarget.arranged.append (hvalue.arranged.widen (Nat.le_succ _) (Nat.le_succ _))
  | ifOnly _ hcondition _ hbody _ =>
    have hbody := hbody.arranged fun s hmem _ _ _ hs =>
      have := List.sizeOf_lt_of_mem hmem
      hs.arranged
    -- The second body is empty and has no nodes.
    simp only [Statement.allNodes, Statement.listAllNodes, Statement.listAllNodes_eq_flatMap,
      List.append_nil]
    exact (hcondition.arranged.widen (Nat.le_succ _) (Nat.le_refl _)).append
      (hbody.widen (Nat.le_succ _) (Nat.le_succ _))
  | ifElse _ hcondition _ hthen _ helse _ =>
    have hthen := hthen.arranged fun s _ _ _ _ hs => hs.arranged
    have helse := helse.arranged fun s _ _ _ _ hs => hs.arranged
    simp only [Statement.allNodes, Statement.listAllNodes_eq_flatMap]
    exact ((hcondition.arranged.widen (Nat.le_succ _) (Nat.le_refl _)).append
      (hthen.widen (Nat.le_succ _) (Nat.le_refl _))).append
      (helse.widen (Nat.le_succ _) (Nat.le_succ _))
  | forIn _ _ _ hiterable _ hbody _ =>
    have hbody := hbody.arranged fun s _ _ _ _ hs => hs.arranged
    simp only [Statement.allNodes, Statement.listAllNodes_eq_flatMap]
    exact (hiterable.arranged.widen (by omega) (Nat.le_refl _)).append
      (hbody.widen (Nat.le_succ _) (Nat.le_succ _))
  | whileDo _ hcondition _ hbody _ =>
    have hbody := hbody.arranged fun s _ _ _ _ hs => hs.arranged
    simp only [Statement.allNodes, Statement.listAllNodes_eq_flatMap]
    exact (hcondition.arranged.widen (Nat.le_succ _) (Nat.le_refl _)).append
      (hbody.widen (Nat.le_succ _) (Nat.le_succ _))
  | returns _ he _ => exact he.arranged.widen (Nat.le_succ _) (Nat.le_succ _)
termination_by sizeOf s

/-- A parameter has no nodes. -/
theorem Parameter.Stands.arranged {p : Parameter} {i j : Nat} {ps : List Place}
    (h : p.Stands tokens i j ps) : Arranged i j [] ps := by
  cases h with
  | intro _ htype =>
    have hle := htype.le
    exact .nil (by omega)

/-- The nodes of a method are those of its body and itself. -/
theorem Method.Stands.arranged {m : Method} {i j : Nat} {ps : List Place}
    (h : m.Stands tokens i j ps) : Arranged i j m.allNodes ps := by
  cases h with
  | intro _ _ hparameters htype _ hbody _ =>
    have hparameters := hparameters.arranged fun _ _ _ _ _ hp => hp.arranged
    have hbody := hbody.arranged fun s _ _ _ _ hs => hs.arranged
    have hle := hparameters.le
    have hle' := htype.le
    have hle'' := hbody.le
    refine Arranged.close (n := .method m) ?_ (by omega)
    rw [Node.inside, Statement.listAllNodes_eq_flatMap]
    -- Parameters are no nodes.
    have hnone : m.parameters.flatMap (fun _ => ([] : List Node)) = [] := by simp
    rw [hnone] at hparameters
    exact (hparameters.widen (by omega) (by omega)).append
      (hbody.widen (Nat.le_refl _) (Nat.le_succ _))

/-- The nodes of a program are arranged item by item. -/
theorem Source.Stands.arranged {s : Source} {ps : List Place} (h : s.Stands tokens ps) :
    Arranged 0 tokens.length s.allNodes ps := by
  cases h with
  | intro hfields hmethods =>
    exact (hfields.arranged fun _ _ _ _ _ hd => hd.arranged).append
      (hmethods.arranged fun _ _ _ _ _ hm => hm.arranged)

/-! ### What stands somewhere takes up a token -/

/-- An expression has at least one token. -/
theorem Expr.Stands.lt {e : Expr} {i j : Nat} {ps : List Place} (h : e.Stands tokens i j ps) :
    i < j :=
  h.arranged.lt (by simp [Expr.allNodes, e.nodes_eq])

/-- A declaration has at least one token. -/
theorem Declaration.Stands.lt {d : Declaration} {i j : Nat} {ps : List Place}
    (h : d.Stands tokens i j ps) : i < j :=
  h.arranged.lt (by simp [Declaration.allNodes])

/-- A statement has at least one token. -/
theorem Statement.Stands.lt {s : Statement} {i j : Nat} {ps : List Place}
    (h : s.Stands tokens i j ps) : i < j := by
  refine h.arranged.lt ?_
  cases s <;>
    simp [Statement.allNodes, Expr.allNodes, Declaration.allNodes, Expr.nodes_eq]

/-- A method has at least one token. -/
theorem Method.Stands.lt {m : Method} {i j : Nat} {ps : List Place}
    (h : m.Stands tokens i j ps) : i < j :=
  h.arranged.lt (by simp [Method.allNodes])

end Trees

end LetLang
