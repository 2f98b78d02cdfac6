import LetLang.Proofs.ParserSoundness
import LetLang.Proofs.RoundTrip

/-! # How high the tree of a program is

The height of a tree is the number of blocks, parentheses, operators and dots on its longest path.
`maxNesting` bounds the cost of a program, and that is not its height: the nesting is counted anew
for each level of binding, so a chain of one level may have a chain of the next one at its left
end, and that one yet another, and each of them may be as long as the nesting allows.

* `Expr.height_le_heightBound`   how high an expression of a given cost can be
* `Expr.measured_tower`          and that it can be that high
* `height_of_accepted`           what this means for a program that is accepted -/

namespace LetLang

/-! ## Heights -/

mutual

/-- How many parentheses, operators and dots there are on the longest path into an expression. -/
def Expr.height : Expr → Nat
  | .literal .. | .var .. => 0
  | .group _ inner => inner.height + 1
  | .binary _ _ left right => max left.height right.height + 1
  | .field _ receiver _ => receiver.height + 1
  | .call _ _ items => Expr.listHeight items
  | .invoke _ receiver _ items => max receiver.height (Expr.listHeight items) + 1

/-- The height of the highest of the expressions. -/
def Expr.listHeight : List Expr → Nat
  | [] => 0
  | e :: rest => max e.height (Expr.listHeight rest)

end

/-- The height of an initial value. -/
def initialHeight : Option Expr → Nat
  | none => 0
  | some e => e.height

mutual

/-- How many blocks, parentheses, operators and dots there are on the longest path into a
    statement. -/
def Statement.height : Statement → Nat
  | .expression e => e.height
  | .declare d => initialHeight d.initializer
  | .assign target value => max target.height value.height
  | .ifElse condition thenBody elseBody =>
    max condition.height
      (max (Statement.listHeight thenBody + 1) (Statement.listHeight elseBody + 1))
  | .forIn _ iterable body => max iterable.height (Statement.listHeight body + 1)
  | .whileDo condition body => max condition.height (Statement.listHeight body + 1)
  | .returns e => e.height

/-- The height of the highest of the statements. -/
def Statement.listHeight : List Statement → Nat
  | [] => 0
  | s :: rest => max s.height (Statement.listHeight rest)

end

/-- The height of a method, whose body is a block. -/
def Method.height (m : Method) : Nat := Statement.listHeight m.body + 1

/-- The height of the highest field or method. -/
def Source.height (s : Source) : Nat :=
  max ((s.fields.map fun d => initialHeight d.initializer).foldr max 0)
    ((s.methods.map Method.height).foldr max 0)

/-! ## How high an expression can be -/

/-- How high an expression of cost `r` can be: one chain for each of the four levels of binding, a
    chain of dots, and parentheses around an expression of less cost. -/
def heightBound : Nat → Nat
  | 0 => 0
  | r + 1 => heightBound r + 1 + 5 * (r + 1)

/-- How high an expression of cost `r` can be that has neither an operator nor a dot outside of
    all parentheses. -/
def primaryBound : Nat → Nat
  | 0 => 0
  | r + 1 => heightBound r + 1

/-- Above a primary expression stand five levels of operators and links. -/
private theorem heightBound_eq (r : Nat) : heightBound r = primaryBound r + 5 * r := by
  cases r <;> rfl

/-- The bound grows with the square of the nesting. -/
private theorem two_mul_heightBound (r : Nat) : 2 * heightBound r = r * (5 * r + 7) := by
  induction r with
  | zero => rfl
  | succ r ih =>
    simp only [heightBound, Nat.mul_add, ih, Nat.add_mul]
    omega

/-- How long the chain is that an expression ends. -/
def Expr.spine : Expr → Nat
  | .binary _ operator left _ => left.links operator.level + 1
  | e => e.dots

/-- The links of a chain are paid for one by one. -/
private theorem Expr.spine_le_cost (e : Expr) : e.spine ≤ e.cost := by
  cases e <;> simp only [Expr.spine, Expr.dots, Expr.cost] <;> omega

/-- In front of a dot there is a chain of dots. -/
private theorem Expr.spine_of_not_binary {e : Expr} (h : e.isBinary = false) :
    e.spine = e.dots ∧ e.rank = 4 := by
  cases e with
  | binary => simp [Expr.isBinary] at h
  | _ => exact ⟨rfl, rfl⟩

/-- A left operand continues the chain of the operator, or it is bound more tightly. -/
private theorem Expr.spine_of_rank {level : Level} {e : Expr} (h : level.rank ≤ e.rank) :
    e.rank = level.rank ∧ e.spine = e.links level ∨ level.rank < e.rank := by
  cases e with
  | binary id o left right =>
    obtain heq | hlt := Nat.eq_or_lt_of_le h
    · obtain rfl := Level.rank_inj heq
      exact .inl ⟨rfl, by simp [Expr.spine, Expr.links]⟩
    · exact .inr hlt
  | _ => exact .inr level.rank_lt

/-- The chain that an expression ends is counted link by link, the tighter ones at its left end
    as long as they can be. -/
private theorem Expr.le_heightBound {e : Expr} {r : Nat} (hcost : e.cost ≤ r)
    (h : e.height ≤ e.spine + (4 - e.rank) * r + primaryBound r) : e.height ≤ heightBound r := by
  have hspine := e.spine_le_cost
  have hlevels : (4 - e.rank) * r ≤ 4 * r := Nat.mul_le_mul_right r (Nat.sub_le 4 e.rank)
  rw [heightBound_eq]
  omega

mutual

/-- Every level of operators may add a chain of its own. -/
private theorem Expr.height_le_spine : (e : Expr) → (r : Nat) → e.isNormal = true → e.cost ≤ r →
    e.height ≤ e.spine + (4 - e.rank) * r + primaryBound r
  | .literal .., r, _, _ => Nat.zero_le _
  | .var .., r, _, _ => Nat.zero_le _
  | .group _ inner, r, hnormal, hcost => by
    simp only [Expr.cost] at hcost
    obtain ⟨r, rfl⟩ : ∃ k, r = k + 1 := ⟨r - 1, by omega⟩
    -- Parentheses start the levels of precedence again, with a level of nesting less.
    have hinner := Expr.le_heightBound (by omega) (Expr.height_le_spine inner r hnormal (by omega))
    simp only [Expr.height, primaryBound]
    omega
  -- The name of a call is no link, but its arguments have a level less.
  | .call _ _ items, r, hnormal, hcost => by
    have hitems := Expr.listHeight_le items r hnormal hcost
    simp only [Expr.height]
    omega
  | .field _ receiver _, r, hnormal, hcost => by
    simp only [Expr.isNormal, Bool.and_eq_true, Bool.not_eq_true'] at hnormal
    simp only [Expr.cost, Nat.max_le] at hcost
    obtain ⟨hspine, hrank⟩ := Expr.spine_of_not_binary hnormal.1
    -- A field is a link of the chain that its receiver ends.
    have hreceiver := Expr.height_le_spine receiver r hnormal.2 hcost.1
    rw [hspine, hrank] at hreceiver
    simp only [Expr.height, Expr.spine, Expr.dots, Expr.rank]
    omega
  | .invoke _ receiver _ items, r, hnormal, hcost => by
    simp only [Expr.isNormal, Bool.and_eq_true, Bool.not_eq_true'] at hnormal
    simp only [Expr.cost, Nat.max_le] at hcost
    obtain ⟨hspine, hrank⟩ := Expr.spine_of_not_binary hnormal.1.1
    have hreceiver := Expr.height_le_spine receiver r hnormal.1.2 hcost.1
    have hitems := Expr.listHeight_le items r hnormal.2 (by omega)
    rw [hspine, hrank] at hreceiver
    simp only [Expr.height, Expr.spine, Expr.dots, Expr.rank]
    omega
  | .binary _ o left right, r, hnormal, hcost => by
    simp only [Expr.isNormal, Bool.and_eq_true, decide_eq_true_eq] at hnormal
    obtain ⟨⟨⟨hleftRank, -⟩, hleftNormal⟩, hrightNormal⟩ := hnormal
    simp only [Expr.cost, Nat.max_le] at hcost
    obtain ⟨r, rfl⟩ : ∃ k, r = k + 1 := ⟨r - 1, by omega⟩
    have hleft := Expr.height_le_spine left (r + 1) hleftNormal hcost.1
    have hright :=
      Expr.le_heightBound (by omega) (Expr.height_le_spine right r hrightNormal (by omega))
    have hlevel := o.level.rank_lt
    simp only [Expr.height, Expr.spine, Expr.rank]
    simp only [primaryBound] at hleft ⊢
    obtain ⟨hrank, hspine⟩ | hrank := Expr.spine_of_rank hleftRank
    · -- One more link of the chain that the left operand ends.
      rw [hrank, hspine] at hleft
      omega
    · -- The chain of the left operand takes up one of the levels that the operator leaves.
      have hspine := left.spine_le_cost
      have hlevels : (4 - left.rank) * (r + 1) + (r + 1) ≤ (4 - o.level.rank) * (r + 1) := by
        rw [← Nat.succ_mul]
        exact Nat.mul_le_mul_right _ (by omega)
      omega

/-- Arguments are one level deeper than the call. -/
private theorem Expr.listHeight_le :
    (items : List Expr) → (r : Nat) → Expr.listNormal items = true →
    Expr.listCost items ≤ r → Expr.listHeight items ≤ primaryBound r
  | [], r, _, _ => Nat.zero_le _
  | e :: rest, r, hnormal, hcost => by
    simp only [Expr.listNormal, Bool.and_eq_true] at hnormal
    simp only [Expr.listCost] at hcost
    obtain ⟨r, rfl⟩ : ∃ k, r = k + 1 := ⟨r - 1, by omega⟩
    have hrest := Expr.listHeight_le rest (r + 1) hnormal.2 (by omega)
    have he := Expr.le_heightBound (by omega) (Expr.height_le_spine e r hnormal.1 (by omega))
    simp only [Expr.listHeight]
    simp only [primaryBound] at hrest ⊢
    omega

end

/-- An expression is no higher than its cost allows. -/
theorem Expr.height_le_heightBound {e : Expr} {r : Nat} (hnormal : e.isNormal = true)
    (hcost : e.cost ≤ r) : e.height ≤ heightBound r :=
  Expr.le_heightBound hcost (e.height_le_spine r hnormal hcost)

/-! ## How high a program can be -/

/-- A declaration is as high as its initializer. -/
private theorem initialHeight_le {value : Option Expr} {r : Nat}
    (hnormal : ∀ e ∈ value.toList, e.isNormal = true) (hcost : initialCost value ≤ r + 1) :
    initialHeight value ≤ heightBound r := by
  cases value with
  | none => exact Nat.zero_le _
  | some e =>
    simp only [initialCost] at hcost
    exact Expr.height_le_heightBound (hnormal e (by simp)) (by omega)

/-- A statement without expressions and blocks has no height. -/
private theorem Statement.height_eq_zero {s : Statement} (h : s.cost = 0) : s.height = 0 := by
  cases s with
  | declare d =>
    obtain ⟨id, name, type, value⟩ := d
    cases value with
    | none => rfl
    | some e => simp [Statement.cost, initialCost] at h
  | _ =>
    simp only [Statement.cost] at h
    omega

mutual

-- An empty block has a height of 1 even where no nesting is left for an expression in it, which
-- is why the bound is never 0.
/-- Statements are no higher than the expressions that fit at their level. -/
private theorem Statement.height_le :
    (s : Statement) → (r : Nat) → (∀ e ∈ s.exprs, e.isNormal = true) →
    s.cost ≤ r + 1 → s.height ≤ max 1 (heightBound r)
  | .expression e, r, hnormal, hcost => by
    simp only [Statement.exprs, List.forall_mem_singleton] at hnormal
    simp only [Statement.cost] at hcost
    have he := Expr.height_le_heightBound (r := r) hnormal (by omega)
    exact Nat.le_trans he (Nat.le_max_right _ _)
  | .declare d, r, hnormal, hcost =>
    Nat.le_trans (initialHeight_le hnormal hcost) (Nat.le_max_right _ _)
  -- Assignments and conditions hold several expressions next to each other; the highest counts.
  | .assign target value, r, hnormal, hcost => by
    simp only [Statement.exprs, List.forall_mem_cons] at hnormal
    simp only [Statement.cost] at hcost
    have htarget := Expr.height_le_heightBound (r := r) hnormal.1 (by omega)
    have hvalue := Expr.height_le_heightBound (r := r) hnormal.2.1 (by omega)
    simp only [Statement.height]
    omega
  | .ifElse condition thenBody elseBody, r, hnormal, hcost => by
    simp only [Statement.exprs, List.forall_mem_cons, List.forall_mem_append] at hnormal
    rw [Statement.ifElse_cost_le_iff] at hcost
    have hcondition := Expr.height_le_heightBound (r := r) hnormal.1 (by omega)
    have hthen := Statement.listHeight_le thenBody r hnormal.2.1 (by omega)
    have helse := Statement.listHeight_le elseBody r hnormal.2.2 (by omega)
    simp only [Statement.height]
    omega
  | .forIn _ iterable body, r, hnormal, hcost => by
    simp only [Statement.exprs, List.forall_mem_cons] at hnormal
    simp only [Statement.cost] at hcost
    have hiterable := Expr.height_le_heightBound (r := r) hnormal.1 (by omega)
    have hbody := Statement.listHeight_le body r hnormal.2 (by omega)
    simp only [Statement.height]
    omega
  | .whileDo condition body, r, hnormal, hcost => by
    simp only [Statement.exprs, List.forall_mem_cons] at hnormal
    simp only [Statement.cost] at hcost
    have hcondition := Expr.height_le_heightBound (r := r) hnormal.1 (by omega)
    have hbody := Statement.listHeight_le body r hnormal.2 (by omega)
    simp only [Statement.height]
    omega
  | .returns e, r, hnormal, hcost => by
    simp only [Statement.exprs, List.forall_mem_singleton] at hnormal
    simp only [Statement.cost] at hcost
    have he := Expr.height_le_heightBound (r := r) hnormal (by omega)
    exact Nat.le_trans he (Nat.le_max_right _ _)

/-- A block is one level deeper than the statement around it. -/
private theorem Statement.listHeight_le : (body : List Statement) → (r : Nat) →
    (∀ e ∈ Statement.listExprs body, e.isNormal = true) → Statement.listCost body ≤ r →
    Statement.listHeight body + 1 ≤ max 1 (heightBound r)
  | [], r, _, _ => Nat.le_max_left _ _
  | s :: rest, r, hnormal, hcost => by
    simp only [Statement.listExprs, List.forall_mem_append] at hnormal
    simp only [Statement.listCost, Nat.max_le] at hcost
    have hrest := Statement.listHeight_le rest r hnormal.2 hcost.2
    have hs : s.height + 1 ≤ max 1 (heightBound r) := by
      -- At the last level a block has no room for anything that has parts.
      cases r with
      | zero =>
        rw [Statement.height_eq_zero (by omega)]
        exact Nat.le_max_left _ _
      | succ r =>
        have := Statement.height_le s r hnormal.1 hcost.1
        simp only [heightBound]
        omega
    simp only [Statement.listHeight]
    omega

end

/-- A program is no higher than its cost allows. -/
theorem Source.height_le_heightBound {s : Source} {r : Nat}
    (hnormal : ∀ e ∈ s.exprs, e.isNormal = true) (hcost : s.cost ≤ r + 1) :
    s.height ≤ max 1 (heightBound r) := by
  simp only [Source.exprs, List.forall_mem_append, List.forall_mem_flatMap] at hnormal
  rw [Source.cost_le_iff] at hcost
  simp only [Source.height, Nat.max_le, foldr_max_le_iff, List.forall_mem_map]
  constructor
  · intro d hd
    have hd := initialHeight_le (hnormal.1 d hd) (hcost.1 d hd)
    exact Nat.le_trans hd (Nat.le_max_right _ _)
  · intro m hm
    have hbody := hcost.2 m hm
    simp only [Method.cost] at hbody
    exact Statement.listHeight_le m.body r (hnormal.2 m hm) (by omega)

/-! ## Heights and numbers of nodes -/

mutual

/-- Ids do not count for the height. -/
private theorem Expr.height_unnumbered : (e : Expr) → e.unnumbered.height = e.height
  | .literal _ _ => rfl
  | .group _ inner => by
    simp only [Expr.unnumbered, Expr.height, Expr.height_unnumbered inner]
  | .binary _ _ left right => by
    simp only [Expr.unnumbered, Expr.height, Expr.height_unnumbered left,
      Expr.height_unnumbered right]
  | .var _ _ => rfl
  | .field _ receiver _ => by
    simp only [Expr.unnumbered, Expr.height, Expr.height_unnumbered receiver]
  | .call _ _ items => by
    simp only [Expr.unnumbered, Expr.height, Expr.listHeight_unnumbered items]
  | .invoke _ receiver _ items => by
    simp only [Expr.unnumbered, Expr.height, Expr.height_unnumbered receiver,
      Expr.listHeight_unnumbered items]

private theorem Expr.listHeight_unnumbered :
    (items : List Expr) → Expr.listHeight (Expr.listUnnumbered items) = Expr.listHeight items
  | [] => rfl
  | e :: rest => by
    simp only [Expr.listUnnumbered, Expr.listHeight, Expr.height_unnumbered e,
      Expr.listHeight_unnumbered rest]

end

private theorem Declaration.height_unnumbered (d : Declaration) :
    initialHeight d.unnumbered.initializer = initialHeight d.initializer := by
  simp only [Declaration.unnumbered]
  cases d.initializer with
  | none => rfl
  | some e => exact e.height_unnumbered

mutual

private theorem Statement.height_unnumbered : (s : Statement) → s.unnumbered.height = s.height
  | .expression e => e.height_unnumbered
  | .declare d => d.height_unnumbered
  | .assign target value => by
    simp only [Statement.unnumbered, Statement.height, Expr.height_unnumbered]
  | .ifElse condition thenBody elseBody => by
    simp only [Statement.unnumbered, Statement.height, Expr.height_unnumbered,
      Statement.listHeight_unnumbered thenBody, Statement.listHeight_unnumbered elseBody]
  | .forIn _ iterable body => by
    simp only [Statement.unnumbered, Statement.height, Expr.height_unnumbered,
      Statement.listHeight_unnumbered body]
  | .whileDo condition body => by
    simp only [Statement.unnumbered, Statement.height, Expr.height_unnumbered,
      Statement.listHeight_unnumbered body]
  | .returns e => e.height_unnumbered

private theorem Statement.listHeight_unnumbered : (body : List Statement) →
    Statement.listHeight (Statement.listUnnumbered body) = Statement.listHeight body
  | [] => rfl
  | s :: rest => by
    simp only [Statement.listUnnumbered, Statement.listHeight, Statement.height_unnumbered s,
      Statement.listHeight_unnumbered rest]

end

/-- The height of a program does not depend on the numbers of its nodes. -/
private theorem Source.height_unnumbered (s : Source) : s.unnumbered.height = s.height := by
  have hmethods : Method.height ∘ Method.unnumbered = Method.height :=
    funext fun m => congrArg (· + 1) (Statement.listHeight_unnumbered m.body)
  have hfields : (fun d : Declaration => initialHeight d.initializer) ∘ Declaration.unnumbered =
      fun d => initialHeight d.initializer :=
    funext Declaration.height_unnumbered
  simp only [Source.height, Source.unnumbered, List.map_map, hmethods, hfields]

/-! ## Chains and towers -/

/-- A chain of `n` operators behind an expression. -/
def Expr.chained (o : Operator) : Nat → Expr → Expr
  | 0, e => e
  | n + 1, e => .binary 0 o (e.chained o n) (.literal 0 (.integer 1))

/-- A chain of `n` dots behind an expression. -/
def Expr.dotted : Nat → Expr → Expr
  | 0, e => e
  | n + 1, e => .field 0 (e.dotted n) "x"

/-- An expression that can be written down, what it is bound with, how far it nests and how high it
    is. -/
structure Expr.Measured (e : Expr) (rank cost height : Nat) : Prop where
  normal : e.isNormal = true
  writable : ∀ y ∈ e.terminals, y.Writable
  rank_le : rank ≤ e.rank
  cost_eq : e.cost = cost
  height_eq : e.height = height

private theorem writable_x : (Terminal.name "x").Writable :=
  ⟨.identifier rfl (List.all_eq_true.mp rfl), by simp [reserved]⟩

@[simp]
theorem writable_keyword (w : String) : (Terminal.keyword w).Writable := trivial

@[simp]
theorem writable_sign (s : String) : (Terminal.sign s).Writable := trivial

/-- Operators can be written down. -/
private theorem Operator.writable_terminal (o : Operator) : o.terminal.Writable := by
  cases o <;> trivial

namespace Expr

variable {e : Expr} {rank cost height : Nat}

private theorem writable_one : (Terminal.literal (.integer 1)).Writable := trivial

private theorem measured_one : (Expr.literal 0 (.integer 1)).Measured 4 0 0 :=
  ⟨rfl, by simp [Expr.terminals, writable_one], Nat.le_refl 4, rfl, rfl⟩

/-- Parentheses cost one level and add one to the height. -/
theorem Measured.group (h : e.Measured rank cost height) :
    (Expr.group 0 e).Measured 4 (cost + 1) (height + 1) where
  normal := h.normal
  writable := by
    simpa [Expr.terminals, or_imp, forall_and] using h.writable
  rank_le := Nat.le_refl 4
  cost_eq := by rw [Expr.cost, h.cost_eq, Nat.add_comm]
  height_eq := by rw [Expr.height, h.height_eq]

/-- A chain of looser operators nests as far as it is long, if the first operand does not nest
    further, but its links come on top of the height of that operand. -/
theorem Measured.chained (h : e.Measured rank cost height) {o : Operator}
    (ho : o.level.rank < rank) (n : Nat) :
    (e.chained o n).Measured o.level.rank (max cost n) (height + n) ∧
      (e.chained o n).links o.level = n := by
  induction n with
  | zero =>
    refine ⟨⟨h.normal, h.writable, Nat.le_trans (Nat.le_of_lt ho) h.rank_le, ?_, h.height_eq⟩, ?_⟩
    · exact h.cost_eq.trans (Nat.max_zero cost).symm
    · exact Expr.links_eq_zero (Nat.lt_of_lt_of_le ho h.rank_le)
  | succ n ih =>
    -- Every link is paid for by the chain and adds one to the height.
    obtain ⟨hchain, hlinks⟩ := ih
    refine ⟨⟨?_, ?_, Nat.le_refl _, ?_, ?_⟩, ?_⟩
    · have hone := Nat.lt_of_lt_of_le o.level.rank_lt measured_one.rank_le
      simp [Expr.chained, Expr.isNormal, hchain.rank_le, hchain.normal, hone]
    · simpa [Expr.chained, Expr.terminals, or_imp, forall_and, o.writable_terminal,
        writable_one] using hchain.writable
    · simp only [Expr.chained, Expr.cost, hchain.cost_eq, hlinks]
      omega
    · simp only [Expr.chained, Expr.height, hchain.height_eq]
      omega
    · simp only [Expr.chained, Expr.links, hlinks, if_true]

/-- Links cost as much as the longest chain, but each adds one to the height. -/
private theorem Measured.dotted (h : e.Measured 4 cost height) (hdots : e.dots = 0) (n : Nat) :
    (e.dotted n).Measured 4 (max cost n) (height + n) ∧ (e.dotted n).dots = n := by
  induction n with
  | zero =>
    exact ⟨⟨h.normal, h.writable, h.rank_le, h.cost_eq.trans (Nat.max_zero cost).symm,
      h.height_eq⟩, hdots⟩
  | succ n ih =>
    -- The same for a link, which is a name.
    obtain ⟨hchain, hdots⟩ := ih
    refine ⟨⟨?_, ?_, Nat.le_refl 4, ?_, ?_⟩, ?_⟩
    · simp [Expr.dotted, Expr.isNormal, (Expr.isBinary_eq_false_iff _).mpr hchain.rank_le,
        hchain.normal]
    · simpa [Expr.dotted, Expr.terminals, or_imp, forall_and, writable_x] using hchain.writable
    · simp only [Expr.dotted, Expr.cost, hchain.cost_eq, hdots]
      omega
    · simp only [Expr.dotted, Expr.height, hchain.height_eq]
      omega
    · simp only [Expr.dotted, Expr.dots, hdots]

/-- The highest expression that nests `r` levels: chains of all levels of binding, one at the left
    end of another, each as long as it can be. -/
def tower : Nat → Expr
  | 0 => .literal 0 (.integer 1)
  | r + 1 =>
    [.times, .plus, .less, .and].foldl (fun e o => e.chained o (r + 1))
      ((Expr.group 0 (tower r)).dotted (r + 1))

/-- The tower reaches the bound with every level that it is allowed. -/
theorem measured_tower (r : Nat) : (tower r).Measured 0 r (heightBound r) := by
  induction r with
  | zero => exact { measured_one with rank_le := Nat.zero_le _ }
  | succ r ih =>
    -- Each chain starts where the one before it has ended, and is as long as the nesting allows.
    have hdots := (ih.group.dotted rfl (r + 1)).1
    have htimes := (hdots.chained (o := .times) (by decide) (r + 1)).1
    have hplus := (htimes.chained (o := .plus) (by decide) (r + 1)).1
    have hless := (hplus.chained (o := .less) (by decide) (r + 1)).1
    have hand := (hless.chained (o := .and) (by decide) (r + 1)).1
    refine ⟨hand.normal, hand.writable, Nat.zero_le _, ?_, ?_⟩
    · exact hand.cost_eq.trans (by simp only [Nat.max_self])
    · exact hand.height_eq.trans (by rw [heightBound]; omega)

end Expr

/-- The program `LET x = e ;`. -/
def letProgram (e : Expr) : Source := ⟨[⟨0, "x", none, some e⟩], []⟩

/-- The program is accepted if the expression does not nest too far, however high it is. -/
theorem Expr.Measured.accepted {e : Expr} {rank cost height : Nat}
    (h : e.Measured rank cost height) (hcost : cost < maxNesting) :
    ∃ tokens s, lex (letProgram e).print = .ok tokens ∧ parse tokens = .ok s ∧
      s.height = height := by
  have hw : ∀ y ∈ (letProgram e).terminals, y.Writable := by
    simpa [Source.terminals, letProgram, Declaration.terminals, annotationTerminals,
      initialTerminals, or_imp, forall_and, writable_x] using h.writable
  have hnormal : ∀ e' ∈ (letProgram e).exprs, e'.isNormal = true := by
    simpa [Source.exprs, letProgram] using h.normal
  have hfits : (letProgram e).cost ≤ maxNesting := by
    simp only [Source.cost_le_iff, letProgram, List.forall_mem_singleton, initialCost, h.cost_eq]
    exact ⟨by omega, by simp⟩
  obtain ⟨tokens, hlex, htokens⟩ := lex_print _ hw
  -- The program is read back with other numbers, which do not matter for its height.
  obtain ⟨s, hparse, hs⟩ :=
    (parse_of_yields (Source.yields_terminals _) hnormal hw htokens).1 hfits
  refine ⟨tokens, s, hlex, hparse, ?_⟩
  rw [← s.height_unnumbered, hs, Source.height_unnumbered]
  simp [letProgram, Source.height, initialHeight, h.height_eq]

/-! ## Accepted programs -/

/-- The tree of an accepted program can be far higher than `maxNesting`, but there is a bound: what
    `heightBound` gives for an expression within a field. -/
theorem height_of_accepted {source : String} {tokens : List Token} {s : Source}
    (hlex : lex source = .ok tokens) (hparse : parse tokens = .ok s) : s.height ≤ 99699 := by
  obtain ⟨-, hnormal, hcost⟩ := parse_yields (lex_wellFormed hlex) hparse
  have hheight := Source.height_le_heightBound (r := 199) hnormal hcost
  have hbound := two_mul_heightBound 199
  omega

/-- There is a program of just that height. -/
theorem height_of_accepted_tower :
    ∃ tokens s, lex (letProgram (Expr.tower 199)).print = .ok tokens ∧ parse tokens = .ok s ∧
      s.height ≤ 99699 ∧ s.height = 99699 := by
  obtain ⟨tokens, s, hlex, hparse, hheight⟩ :=
    (Expr.measured_tower 199).accepted (by decide)
  have hbound := two_mul_heightBound 199
  exact ⟨tokens, s, hlex, hparse, height_of_accepted hlex hparse, by omega⟩

/-- `1 * 1 * … * 1 + 1 + … + 1`, with 101 times `*` and 100 times `+`. -/
def mixedChains : Expr := ((Expr.literal 0 (.integer 1)).chained .times 101).chained .plus 100

/-- Neither chain is longer than the nesting allows, but together they are. -/
theorem mixedChains_exceeds_nesting :
    ∃ tokens s, lex (letProgram mixedChains).print = .ok tokens ∧ parse tokens = .ok s ∧
      s.height = maxNesting + 1 := by
  have htimes := (Expr.measured_one.chained (o := .times) (by decide) 101).1
  have hplus := (htimes.chained (o := .plus) (by decide) 100).1
  exact hplus.accepted (by decide)

end LetLang
