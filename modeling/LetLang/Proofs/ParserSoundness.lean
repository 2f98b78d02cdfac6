import LetLang.Proofs.Cursor
import Mathlib

/-! # The parser reads nothing but programs

Whatever the parser accepts is written with the tokens that it has consumed: none is dropped,
doubled or moved.  The tree is normal, and it nests no further than `maxNesting` by its cost.

`Reads p d Q` says what a step of the parser does that starts at nesting `d`: if it succeeds, it
has consumed tokens for some terminals, and `Q` holds of the result, the nesting at the end and
these terminals.  It is closed under the ways in which the grammar is put together, so one lemma
for each rule of the grammar follows its definition.

* `reads_binaryLevel`, `reads_secondary`   chains lean to the left, and count from there
* `reads_source`   what a whole program consumes
* `parse_yields`   an accepted list of tokens is the yield of its program -/

namespace LetLang

namespace Parse

variable {α β : Type}

/-! ## What a step consumes -/

/-- Between two places there were the tokens for the given terminals. -/
def Consumed (c c' : Cursor) (ys : List Terminal) : Prop :=
  ∃ ts, c.rest = ts ++ c'.rest ∧ List.Forall₂ Terminal.Matches ys ts

/-- From the given place, the step consumes terminals of which, with its result and the
    nesting at its end, `Q` holds. -/
def ReadsFrom (p : Parse α) (c : Cursor) (Q : α → Nat → List Terminal → Prop) : Prop :=
  Ends p c (fun a c' => ∃ ys, Consumed c c' ys ∧ Q a c'.depth ys) (fun _ _ => True)

/-- From every place at nesting `d`, the step consumes terminals of which, with its result and
    the nesting at its end, `Q` holds. -/
def Reads (p : Parse α) (d : Nat) (Q : α → Nat → List Terminal → Prop) : Prop :=
  ∀ c : Cursor, (∀ t ∈ c.rest, t.WellFormed) → c.depth = d → ReadsFrom p c Q

/-- A step that leaves the tokens alone consumes nothing. -/
theorem Consumed.of_rest_eq {c c' : Cursor} (h : c'.rest = c.rest) : Consumed c c' [] :=
  ⟨[], h.symm, .nil⟩

/-- What two steps consume is consumed one after the other. -/
theorem Consumed.append {c c' c'' : Cursor} {ys zs : List Terminal} (h : Consumed c c' ys)
    (h' : Consumed c' c'' zs) : Consumed c c'' (ys ++ zs) := by
  obtain ⟨ts, hts, hys⟩ := h
  obtain ⟨us, hus, hzs⟩ := h'
  exact ⟨ts ++ us, by rw [hts, hus, List.append_assoc], List.rel_append hys hzs⟩

/-- One token was consumed. -/
theorem Consumed.advance {c : Cursor} {t : Token} {rest : List Token} (h : c.rest = t :: rest)
    {y : Terminal} (hy : y.Matches t) : Consumed c c.advance [y] :=
  ⟨[t], by rw [h, Cursor.advance_rest h]; rfl, .cons hy .nil⟩

/-- The tokens that are left are among those there were. -/
theorem Consumed.wellFormed {c c' : Cursor} {ys : List Terminal} (h : Consumed c c' ys)
    (hc : ∀ t ∈ c.rest, t.WellFormed) : ∀ t ∈ c'.rest, t.WellFormed := by
  obtain ⟨ts, hts, _⟩ := h
  intro t ht
  exact hc t (by rw [hts]; exact List.mem_append_right ts ht)

section Rules

variable {d : Nat}

/-- What is read may be described more loosely. -/
theorem Reads.imp {p : Parse α} {Q R : α → Nat → List Terminal → Prop} (h : Reads p d Q)
    (hR : ∀ a d' ys, Q a d' ys → R a d' ys) : Reads p d R := by
  intro c hw hd
  refine (h c hw hd).mono ?_
  rintro a c' - ⟨ys, hys, hQ⟩
  exact ⟨ys, hys, hR _ _ _ hQ⟩

/-- What follows a step starts behind the tokens that the step has consumed. -/
theorem Reads.bind {p : Parse α} {f : α → Parse β} {Q : α → Nat → List Terminal → Prop}
    {R : β → Nat → List Terminal → Prop} (hp : Reads p d Q)
    (hf : ∀ a d' ys, Q a d' ys → Reads (f a) d' fun b d'' zs => R b d'' (ys ++ zs)) :
    Reads (p >>= f) d R := by
  intro c hw hd
  refine (hp c hw hd).bind ?_
  rintro a c₁ - ⟨ys, hys, hQ⟩
  refine (hf a c₁.depth ys hQ c₁ (hys.wellFormed hw) rfl).mono ?_
  rintro b c₂ - ⟨zs, hzs, hR⟩
  exact ⟨ys ++ zs, hys.append hzs, hR⟩

/-- A branch may use its condition. -/
theorem Reads.ite {p : Prop} [Decidable p] {x y : Parse α} {Q : α → Nat → List Terminal → Prop}
    (hx : p → Reads x d Q) (hy : ¬p → Reads y d Q) : Reads (if p then x else y) d Q := by
  split
  · exact hx ‹_›
  · exact hy ‹_›

/-- A function of the value reads nothing more. -/
theorem Reads.map {p : Parse α} {f : α → β} {Q : β → Nat → List Terminal → Prop}
    (h : Reads p d fun a d' ys => Q (f a) d' ys) : Reads (f <$> p) d Q := by
  intro c hw hd
  unfold ReadsFrom
  rw [ends_map]
  exact h c hw hd

private theorem reads_pure {a : α} {Q : α → Nat → List Terminal → Prop} (h : Q a d []) :
    Reads (pure a) d Q := by
  rintro c - rfl
  exact ⟨[], .of_rest_eq rfl, h⟩

/-- A rule that fails reads whatever is asked. -/
private theorem reads_fail {Q : α → Nat → List Terminal → Prop} (fault : ParseFault) :
    Reads (fail fault) d Q := fun _ _ _ => trivial

/-- A step that neither consumes anything nor nests. -/
private theorem reads_quiet {p : Parse α} {f : α → Parse β} {Q : β → Nat → List Terminal → Prop}
    (hp : ∀ c, Ends p c (fun _ c' => c'.rest = c.rest ∧ c'.depth = c.depth) fun _ _ => True)
    (h : ∀ a, Reads (f a) d Q) : Reads (p >>= f) d Q := by
  intro c hw hd
  refine (hp c).bind ?_
  rintro a c₁ - ⟨hrest, hdepth⟩
  refine (h a c₁ (by rwa [hrest]) (by rw [hdepth, hd])).mono ?_
  rintro b c₂ - ⟨ys, hys, hQ⟩
  exact ⟨ys, (Consumed.of_rest_eq hrest).append hys, hQ⟩

section Steps

variable {Q : α → Nat → List Terminal → Prop} {lexeme : String}

private theorem reads_sees {f : Bool → Parse α} (h : ∀ b, Reads (f b) d Q) :
    Reads (sees lexeme >>= f) d Q := reads_quiet (fun _ => ⟨rfl, rfl⟩) h

private theorem reads_seesAny {words : List String} {f : Bool → Parse α}
    (h : ∀ b, Reads (f b) d Q) :
    Reads (seesAny words >>= f) d Q := reads_quiet (fun _ => ⟨rfl, rfl⟩) h

private theorem reads_peek {f : Option Token → Parse α} (h : ∀ next, Reads (f next) d Q) :
    Reads (peek >>= f) d Q := reads_quiet (fun _ => ⟨rfl, rfl⟩) h

private theorem reads_remaining {f : Nat → Parse α} (h : ∀ n, Reads (f n) d Q) :
    Reads (remaining >>= f) d Q := reads_quiet (fun _ => ⟨rfl, rfl⟩) h

private theorem reads_fresh {f : NodeId → Parse α} (h : ∀ id, Reads (f id) d Q) :
    Reads (fresh >>= f) d Q := reads_quiet (fun _ => ⟨rfl, rfl⟩) h

/-- Going deeper passes below the bound only. -/
theorem ReadsFrom.enter {c : Cursor} {f : Unit → Parse α}
    (h : c.depth < maxNesting → ReadsFrom (f ()) { c with depth := c.depth + 1 } Q) :
    ReadsFrom (enter >>= f) c Q := by
  unfold ReadsFrom
  rw [ends_bind, ends_enter]
  split
  · trivial
  · exact h (by omega)

/-- A rule one level deeper has to be right below the bound only. -/
private theorem reads_enter {f : Unit → Parse α} (h : d < maxNesting → Reads (f ()) (d + 1) Q) :
    Reads (enter >>= f) d Q := by
  rintro c hw rfl
  exact ReadsFrom.enter fun hroom => h hroom { c with depth := c.depth + 1 } hw rfl

/-- What follows the next token starts behind it. -/
theorem Reads.behind {c : Cursor} {t : Token} {rest : List Token} {f : Unit → Parse α}
    {y : Terminal} (h : Reads (f ()) d fun a d' ys => Q a d' (y :: ys)) (hrest : c.rest = t :: rest)
    (hw : ∀ t ∈ c.rest, t.WellFormed) (hd : c.depth = d) (hy : y.Matches t) :
    ReadsFrom (advance >>= f) c Q := by
  have hone := Consumed.advance hrest hy
  unfold ReadsFrom
  rw [ends_bind, ends_advance]
  refine (h c.advance (hone.wellFormed hw) (by rw [Cursor.advance_depth, hd])).mono ?_
  rintro a c' - ⟨ys, hys, hQ⟩
  exact ⟨y :: ys, hone.append hys, hQ⟩

/-- A choice by whether the word or sign comes next. -/
private theorem reads_choice {p q : Parse α} (y : Terminal) (hy : Terminal.fixed lexeme = y)
    (hp : Reads p d fun a d' ys => Q a d' (y :: ys)) (hq : Reads q d Q) :
    Reads (do if ← accept lexeme then p else q) d Q := by
  intro c hw hd
  unfold ReadsFrom
  rw [ends_bind, ends_accept]
  split
  · rename_i hsees
    obtain ⟨t, rest, hrest, ht⟩ := Cursor.exists_of_sees hsees
    have hmatches := (hw t (by rw [hrest]; exact List.mem_cons_self)).matches_fixed ht
    exact Reads.behind (f := fun _ => p) hp hrest hw hd (hy ▸ hmatches)
  · exact hq c hw hd

/-- What is expected is read. -/
private theorem reads_expect {f : Unit → Parse α} (y : Terminal) (hy : Terminal.fixed lexeme = y)
    (h : Reads (f ()) d fun a d' ys => Q a d' (y :: ys)) : Reads (expect lexeme >>= f) d Q := by
  have hexpect : Reads (expect lexeme) d fun _ d' ys => d' = d ∧ ys = [y] :=
    reads_choice y hy (reads_pure ⟨rfl, rfl⟩) (reads_fail _)
  refine hexpect.bind ?_
  rintro _ _ _ ⟨rfl, rfl⟩
  exact h

/-- The next token may be used for what is read. -/
theorem ReadsFrom.peek {c : Cursor} {f : Option Token → Parse α}
    (h : ReadsFrom (f c.rest.head?) c Q) : ReadsFrom (peek >>= f) c Q := h

/-- A name is read. -/
private theorem reads_identifier {f : String → Parse α}
    (h : ∀ name, Reads (f name) d fun a d' ys => Q a d' (.name name :: ys)) :
    Reads (identifier >>= f) d Q := by
  have hname : Reads identifier d fun name d' ys => d' = d ∧ ys = [.name name] := by
    intro c hw hd
    refine ReadsFrom.peek ?_
    cases hrest : c.rest with
    | nil => trivial
    | cons t rest =>
      simp only [List.head?_cons]
      -- A token of another kind is an error, which reads nothing.
      split
      · rename_i hkind
        have ht : (Terminal.name t.lexeme).Matches t := ⟨hkind, rfl⟩
        exact Reads.behind (reads_pure ⟨rfl, rfl⟩) hrest hw hd ht
      · trivial
  refine hname.bind ?_
  rintro name _ _ ⟨rfl, rfl⟩
  exact h name

end Steps

/-- The nesting at the end of the step does not matter. -/
theorem Reads.restoringDepth {p : Parse α} {Q : α → List Terminal → Prop}
    (h : Reads p d fun a _ ys => Q a ys) :
    Reads (restoringDepth p) d fun a d' ys => d' = d ∧ Q a ys := by
  rintro c hw rfl
  unfold ReadsFrom
  rw [ends_restoringDepth]
  refine (h c hw rfl).mono ?_
  rintro a c' - ⟨ys, hys, hQ⟩
  exact ⟨ys, hys, rfl, hQ⟩

/-! ### Repetition -/

/-- Lists read their items with commas in between, by induction on the rounds. -/
private theorem reads_commaRounds {item : Parse α} {terminals : α → List Terminal} {P : α → Prop}
    (h : Reads item d fun a d' ys => d' = d ∧ ys = terminals a ∧ P a) (n : Nat) (done : List α)
    (hdone : ∀ a ∈ done, P a) :
    Reads (commaRounds item n done) d fun l d' ys => d' = d ∧
      (∃ more, l = done.reverse ++ more ∧
        ys = more.flatMap fun a => .sign "," :: terminals a) ∧ ∀ a ∈ l, P a := by
  -- The list so far is kept in reverse, so what is still to come stands behind its reverse.
  have hstop : ∀ done : List α, (∀ a ∈ done, P a) →
      Reads (pure done.reverse) d fun l d' ys => d' = d ∧
        (∃ more, l = done.reverse ++ more ∧
          ys = more.flatMap fun a => .sign "," :: terminals a) ∧ ∀ a ∈ l, P a :=
    fun done hdone => reads_pure ⟨rfl, ⟨[], (List.append_nil _).symm, rfl⟩,
      fun a ha => hdone a (List.mem_reverse.mp ha)⟩
  induction n generalizing done with
  | zero => exact hstop done hdone
  | succ n ih =>
    refine reads_choice (.sign ",") rfl ?_ (hstop done hdone)
    refine h.bind ?_
    rintro a _ _ ⟨rfl, rfl, ha⟩
    have hdone' : ∀ x ∈ a :: done, P x := by
      intro x hx
      obtain rfl | hx := List.mem_cons.mp hx
      · exact ha
      · exact hdone x hx
    refine (ih (a :: done) hdone').imp ?_
    rintro l _ _ ⟨rfl, ⟨more, rfl, rfl⟩, hl⟩
    exact ⟨rfl, ⟨a :: more, by simp, by simp⟩, hl⟩

/-- A list has at least one item. -/
private theorem reads_commaList {item : Parse α} {terminals : α → List Terminal} {P : α → Prop}
    (h : Reads item d fun a d' ys => d' = d ∧ ys = terminals a ∧ P a) :
    Reads (commaList item) d fun l d' ys => d' = d ∧ ys = separated terminals l ∧ ∀ a ∈ l, P a := by
  refine h.bind ?_
  rintro first _ _ ⟨rfl, rfl, hfirst⟩
  refine reads_remaining fun n => ?_
  refine (reads_commaRounds h n [first] (by simpa using hfirst)).imp ?_
  rintro l _ _ ⟨rfl, ⟨more, rfl, rfl⟩, hl⟩
  exact ⟨rfl, rfl, hl⟩

/-- Repetitions read item after item. -/
private theorem reads_manyRounds {item : Parse α} {P : α → List Terminal → Prop} (lexeme : String)
    (h : Reads item d fun a d' ys => d' = d ∧ P a ys) (n : Nat) (done : List α) :
    Reads (manyRounds lexeme item n done) d fun l d' ys => d' = d ∧
      ∃ more yss, l = done.reverse ++ more ∧ List.Forall₂ P more yss ∧ ys = yss.flatten := by
  have hstop : ∀ done : List α, Reads (pure done.reverse) d fun l d' ys => d' = d ∧
      ∃ more yss, l = done.reverse ++ more ∧ List.Forall₂ P more yss ∧ ys = yss.flatten :=
    fun done => reads_pure ⟨rfl, [], [], (List.append_nil _).symm, .nil, rfl⟩
  induction n generalizing done with
  | zero => exact hstop done
  | succ n ih =>
    -- It may also stop early: no round asks that the word is still there.
    refine reads_sees fun b => ?_
    refine Reads.ite (fun _ => ?_) (fun _ => hstop done)
    refine h.bind ?_
    rintro a _ ys ⟨rfl, ha⟩
    refine (ih (a :: done)).imp ?_
    rintro l _ _ ⟨rfl, more, yss, rfl, hmore, rfl⟩
    exact ⟨rfl, a :: more, ys :: yss, by simp, .cons ha hmore, rfl⟩

private theorem reads_manyAt {item : Parse α} {P : α → List Terminal → Prop} (lexeme : String)
    (h : Reads item d fun a d' ys => d' = d ∧ P a ys) :
    Reads (manyAt lexeme item) d fun l d' ys => d' = d ∧
      ∃ yss, List.Forall₂ P l yss ∧ ys = yss.flatten := by
  refine reads_remaining fun n => ?_
  refine (reads_manyRounds lexeme h n []).imp ?_
  rintro l _ _ ⟨rfl, more, yss, rfl, hmore, rfl⟩
  exact ⟨rfl, yss, hmore, rfl⟩

/-! ## Expressions -/

/-- The step reads expressions that are bound at least as tightly as `r`. -/
def ReadsOperand (r : Nat) (p : Parse Expr) : Prop :=
  ∀ d ≤ maxNesting, Reads p d fun e d' ys => d' = d ∧ ys = e.terminals ∧ e.isNormal = true ∧
    r ≤ e.rank ∧ d + e.cost ≤ maxNesting

/-- The step reads expressions, each of which is a level of its own. -/
def ReadsExpression (p : Parse Expr) : Prop :=
  ∀ d, Reads p d fun e d' ys => d' = d ∧ ys = e.terminals ∧ e.isNormal = true ∧
    d + (1 + e.cost) ≤ maxNesting

/-- Arguments are read up to the closing parenthesis. -/
private theorem reads_arguments {expression : Parse Expr} (h : ReadsExpression expression)
    (hd : d ≤ maxNesting) :
    Reads (arguments expression) d fun items d' ys => d' = d ∧
      ys = Expr.listTerminals items ++ [.sign ")"] ∧ Expr.listNormal items = true ∧
      d + Expr.listCost items ≤ maxNesting := by
  refine reads_choice (.sign ")") rfl ?_ ?_
  · exact reads_pure ⟨rfl, rfl, rfl, by simpa [Expr.listCost] using hd⟩
  · refine (reads_commaList (P := fun e => e.isNormal = true ∧ d + (1 + e.cost) ≤ maxNesting)
      (h d)).bind ?_
    rintro items d _ ⟨rfl, rfl, hitems⟩
    refine reads_expect (.sign ")") rfl ?_
    have hnormal := (Expr.listNormal_iff items).mpr fun e he => (hitems e he).1
    -- The items start at the same nesting, so the deepest of them decides.
    have hcost : Expr.listCost items ≤ maxNesting - d := by
      refine (Expr.listCost_le_iff items _).mpr fun e he => ?_
      have := (hitems e he).2
      omega
    refine reads_pure ⟨rfl, ?_, hnormal, by omega⟩
    simp [Expr.listTerminals_eq]

/-- The operator is one that stands next. -/
theorem ReadsFrom.operatorAt {c : Cursor} {level : Level} {f : Option Operator → Parse α}
    {Q : α → Nat → List Terminal → Prop}
    (h : ReadsFrom (f (level.operators.find? fun o => c.sees o.symbol)) c Q) :
    ReadsFrom (operatorAt level >>= f) c Q := h

/-- A node that is complete. -/
private theorem reads_node {make : NodeId → Expr} {Q : Expr → Nat → List Terminal → Prop}
    (h : ∀ id, Q (make id) d []) : Reads (do return make (← fresh)) d Q := by
  refine reads_fresh fun id => ?_
  exact reads_pure (h id)

/-- A primary expression has neither an operator nor a dot on its own level. -/
private theorem reads_primary {expression : Parse Expr} (h : ReadsExpression expression)
    (hd : d ≤ maxNesting) :
    Reads (primary expression) d fun e d' ys => d' = d ∧ ys = e.terminals ∧
      e.isNormal = true ∧ 4 ≤ e.rank ∧ e.dots = 0 ∧ d + e.cost ≤ maxNesting := by
  intro c hw hc
  refine ReadsFrom.peek ?_
  cases hrest : c.rest with
  | nil => trivial
  | cons t rest =>
    have ht : t.WellFormed := hw t (by rw [hrest]; exact List.mem_cons_self)
    simp only [List.head?_cons]
    -- The kind of the token decides: a literal, a name with or without arguments, or a group.
    cases hliteral : Literal.ofToken? t with
    | some value =>
      dsimp only
      refine Reads.behind (y := .literal value) ?_ hrest hw hc (ht.spelled hliteral)
      exact reads_node fun id => ⟨rfl, rfl, rfl, Nat.le_refl 4, rfl, hd⟩
    | none =>
      dsimp only
      split
      · rename_i hkind
        refine Reads.behind (y := .name t.lexeme) ?_ hrest hw hc ⟨hkind, rfl⟩
        refine reads_choice (.sign "(") rfl ?_ ?_
        · refine (reads_arguments h hd).bind ?_
          rintro items d _ ⟨rfl, rfl, hnormal, hcost⟩
          exact reads_node fun id =>
            ⟨rfl, by simp [Expr.terminals], hnormal, Nat.le_refl 4, rfl, hcost⟩
        · exact reads_node fun id => ⟨rfl, rfl, rfl, Nat.le_refl 4, rfl, hd⟩
      · rename_i hkind
        split
        · rename_i hlexeme
          refine Reads.behind (y := .sign "(") ?_ hrest hw hc ⟨hkind, hlexeme⟩
          refine (h d).bind ?_
          rintro inner d _ ⟨rfl, rfl, hnormal, hcost⟩
          refine reads_choice (.sign ")") rfl ?_ (reads_fail _)
          exact reads_node fun id =>
            ⟨rfl, by simp [Expr.terminals], hnormal, Nat.le_refl 4, rfl, hcost⟩
        · trivial
      · trivial

/-- Every dot of a chain is one level below the one in front of it. -/
private theorem reads_links {expression : Parse Expr} (h : ReadsExpression expression) {d : Nat}
    (n : Nat) (receiver : Expr) (hrank : 4 ≤ receiver.rank) (hnormal : receiver.isNormal = true)
    (hcost : d + receiver.cost ≤ maxNesting) :
    Reads (links expression n receiver) (d + receiver.dots) fun e _ ys =>
      receiver.terminals ++ ys = e.terminals ∧ e.isNormal = true ∧ 4 ≤ e.rank ∧
        d + e.cost ≤ maxNesting := by
  induction n generalizing receiver with
  | zero => exact reads_pure ⟨by simp, hnormal, hrank, hcost⟩
  | succ n ih =>
    have hreceiver := (Expr.isBinary_eq_false_iff receiver).mpr hrank
    refine reads_choice (.sign ".") rfl ?_ (reads_pure ⟨by simp, hnormal, hrank, hcost⟩)
    -- Every link takes a level, which the dots of the receiver count.
    refine reads_enter fun hroom => ?_
    refine reads_identifier fun name => ?_
    refine reads_choice (.sign "(") rfl ?_ ?_
    · refine (reads_arguments h (by omega)).bind ?_
      rintro items _ _ ⟨rfl, rfl, hitems, hlist⟩
      -- The new receiver has one dot more, so the rounds go on from it.
      refine reads_fresh fun id => ?_
      rw [show d + receiver.dots + 1 = d + (Expr.invoke id receiver name items).dots from rfl]
      refine (ih (.invoke id receiver name items) (Nat.le_refl 4) ?_ ?_).imp ?_
      · simp [Expr.isNormal, hreceiver, hnormal, hitems]
      · simp only [Expr.cost]
        omega
      · rintro e d' ys ⟨hys, hrest⟩
        exact ⟨by simp [← hys, Expr.terminals], hrest⟩
    · refine reads_fresh fun id => ?_
      rw [show d + receiver.dots + 1 = d + (Expr.field id receiver name).dots from rfl]
      refine (ih (.field id receiver name) (Nat.le_refl 4) ?_ ?_).imp ?_
      · simp [Expr.isNormal, hreceiver, hnormal]
      · simp only [Expr.cost]
        omega
      · rintro e d' ys ⟨hys, hrest⟩
        exact ⟨by simp [← hys, Expr.terminals], hrest⟩

/-- Links are read from the left, so the receiver is a primary expression. -/
theorem reads_secondary {expression : Parse Expr} (h : ReadsExpression expression) :
    ReadsOperand 4 (secondary expression) := by
  intro d hd
  refine Reads.restoringDepth ((reads_primary h hd).bind ?_)
  rintro first d _ ⟨rfl, rfl, hnormal, hrank, hdots, hcost⟩
  refine reads_remaining fun n => ?_
  have hlinks := reads_links h n first hrank hnormal hcost
  rw [hdots] at hlinks
  exact hlinks.imp fun e _ ys ⟨hys, hrest⟩ => ⟨hys, hrest⟩

/-- Every operator of a chain is one level below the one in front of it. -/
private theorem reads_chain {level : Level} {operand : Parse Expr}
    (h : ReadsOperand (level.rank + 1) operand) {d : Nat} (n : Nat) (left : Expr)
    (hrank : level.rank ≤ left.rank) (hnormal : left.isNormal = true)
    (hcost : d + left.cost ≤ maxNesting) :
    Reads (chain level operand n left) (d + left.links level) fun e _ ys =>
      left.terminals ++ ys = e.terminals ∧ e.isNormal = true ∧ level.rank ≤ e.rank ∧
        d + e.cost ≤ maxNesting := by
  induction n generalizing left with
  | zero => exact reads_pure ⟨by simp, hnormal, hrank, hcost⟩
  | succ n ih =>
    intro c hw hc
    refine ReadsFrom.operatorAt ?_
    cases hfind : level.operators.find? fun o => c.sees o.symbol with
    | none => exact ⟨[], .of_rest_eq rfl, by simp, hnormal, hrank, hcost⟩
    | some operator =>
      have hlevel : operator.level = level :=
        (Level.mem_operators level operator).mp (List.mem_of_find?_eq_some hfind)
      have hsees := List.find?_some hfind
      obtain ⟨t, rest, hrest, ht⟩ := Cursor.exists_of_sees hsees
      have hoperator : operator.terminal.Matches t := by
        rw [Operator.terminal_eq]
        exact (hw t (by rw [hrest]; exact List.mem_cons_self)).matches_fixed ht
      refine ReadsFrom.enter fun hroom => ?_
      refine Reads.behind (d := d + left.links level + 1) (y := operator.terminal) ?_ hrest hw
        (by rw [hc]) hoperator
      refine (h _ (by omega)).bind ?_
      rintro right _ _ ⟨rfl, rfl, hright, hrightRank, hrightCost⟩
      refine reads_fresh fun id => ?_
      -- What has been read becomes the left operand, so the chain leans to the left.
      have hlinks : (Expr.binary id operator left right).links level = left.links level + 1 := by
        simp [Expr.links, hlevel]
      rw [Nat.add_assoc, ← hlinks]
      refine (ih (.binary id operator left right) ?_ ?_ ?_).imp ?_
      · simp [Expr.rank, hlevel]
      · simp only [Expr.isNormal, hlevel, hnormal, hright, hrank, Bool.and_true,
          Bool.and_eq_true, decide_eq_true_eq, true_and]
        omega
      · simp only [Expr.cost, hlevel]
        omega
      · rintro e d' ys ⟨hys, hrest⟩
        exact ⟨by simp [← hys, Expr.terminals], hrest⟩

/-- Chains are read from the left, so the right operands bind tighter. -/
theorem reads_binaryLevel (level : Level) {operand : Parse Expr}
    (h : ReadsOperand (level.rank + 1) operand) :
    ReadsOperand level.rank (binaryLevel level operand) := by
  intro d hd
  refine Reads.restoringDepth ((h d hd).bind ?_)
  rintro left d _ ⟨rfl, rfl, hnormal, hrank, hcost⟩
  refine reads_remaining fun n => ?_
  -- A chain starts at an operand that is bound more tightly, so that is no link.
  have hchain := reads_chain h n left (by omega) hnormal hcost
  rw [Expr.links_eq_zero (by omega)] at hchain
  exact hchain.imp fun e _ ys ⟨hys, hrest⟩ => ⟨hys, hrest⟩

/-- Expressions within any depth, by induction on the depth that is left. -/
private theorem reads_expressionWithin (n : Nat) : ReadsExpression (expressionWithin n) := by
  induction n with
  | zero => exact fun d => reads_fail _
  | succ n ih =>
    intro d
    refine Reads.restoringDepth (reads_enter fun hroom => ?_)
    -- From the tightest level outward.
    have tight := reads_binaryLevel .multiplicative (reads_secondary ih)
    have additive := reads_binaryLevel .additive tight
    have comparison := reads_binaryLevel .comparison additive
    have logical := reads_binaryLevel .logical comparison
    refine (logical (d + 1) hroom).imp ?_
    rintro e _ _ ⟨-, rfl, hnormal, -, hcost⟩
    exact ⟨rfl, hnormal, by omega⟩

private theorem reads_expression :
    ReadsExpression expression := reads_expressionWithin (maxNesting + 1)

/-! ## Statements -/

private theorem reads_annotated :
    Reads annotation d fun type d' ys => d' = d ∧ ys = annotationTerminals type := by
  refine reads_choice (.sign ":") rfl ?_ (reads_pure ⟨rfl, rfl⟩)
  refine reads_identifier fun type => ?_
  exact reads_pure ⟨rfl, rfl⟩

/-- An initial value is an expression behind an equals sign. -/
private theorem reads_initialValue (hd : d ≤ maxNesting) :
    Reads initialValue d fun value d' ys => d' = d ∧ ys = initialTerminals value ∧
      (∀ e ∈ value.toList, e.isNormal = true) ∧ d + initialCost value ≤ maxNesting := by
  refine reads_choice (.sign "=") rfl (Reads.map ?_) (reads_pure ⟨rfl, rfl, by simp, hd⟩)
  refine (reads_expression d).imp ?_
  rintro e _ _ ⟨rfl, rfl, hnormal, hcost⟩
  exact ⟨rfl, rfl, by simpa using hnormal, hcost⟩

/-- A declaration is read with both. -/
private theorem reads_declaration (hd : d ≤ maxNesting) :
    Reads declaration d fun x d' ys => d' = d ∧ ys = x.terminals ∧
      (∀ e ∈ x.initializer.toList, e.isNormal = true) ∧
      d + initialCost x.initializer ≤ maxNesting := by
  refine reads_expect (.keyword "LET") rfl ?_
  refine reads_identifier fun name => ?_
  refine reads_annotated.bind ?_
  rintro type d _ ⟨rfl, rfl⟩
  -- The initializer may nest as deep as the declaration leaves room.
  refine (reads_initialValue hd).bind ?_
  rintro value d _ ⟨rfl, rfl, hvalue⟩
  refine reads_expect (.sign ";") rfl ?_
  refine reads_fresh fun id => ?_
  exact reads_pure ⟨rfl, by simp [Declaration.terminals], hvalue⟩

/-- What reading a statement at nesting `d` tells about it. -/
structure StatementRead (d : Nat) (s : Statement) (ys : List Terminal) : Prop where
  yields : s.Yields ys
  normal : ∀ e ∈ s.exprs, e.isNormal = true
  cost_le : d + s.cost ≤ maxNesting

/-- What reading the statements of a block at nesting `d` tells about them. -/
structure BodyRead (d : Nat) (body : List Statement) (ys : List Terminal) : Prop where
  yields : Statement.YieldsAll body ys
  normal : ∀ e ∈ Statement.listExprs body, e.isNormal = true
  cost_le : d + Statement.listCost body ≤ maxNesting

/-- One statement more at the end. -/
theorem BodyRead.concat {body : List Statement} {s : Statement} {ys zs : List Terminal}
    (h : BodyRead d body ys) (hs : StatementRead d s zs) : BodyRead d (body ++ [s]) (ys ++ zs) where
  yields := h.yields.concat hs.yields
  normal := by
    rw [Statement.listExprs_append]
    simpa [Statement.listExprs, or_imp, forall_and] using ⟨h.normal, hs.normal⟩
  cost_le := by
    have := h.cost_le
    have := hs.cost_le
    rw [Statement.listCost_append]
    simp only [Statement.listCost]
    omega

/-- The reader reads blocks, each of which is a level of its own. -/
def ReadsBlock (block : BlockReader) : Prop :=
  ∀ d first others, Reads (block first others) d fun body d' ys => d' = d ∧ BodyRead (d + 1) body ys

/-- An `ELSE` is read where it stands; an empty one leaves no trace in the tree. -/
private theorem reads_elseBlock {block : BlockReader} (h : ReadsBlock block) (hd : d ≤ maxNesting) :
    Reads (elseBlock block) d fun body d' ys => d' = d ∧ Statement.YieldsElse body ys ∧
      (∀ e ∈ Statement.listExprs body, e.isNormal = true) ∧
      d + (if body.isEmpty then 0 else 1 + Statement.listCost body) ≤ maxNesting := by
  refine reads_choice (.keyword "ELSE") rfl ?_ ?_
  · refine (h d _ _).imp ?_
    rintro body _ ys ⟨rfl, hbody⟩
    refine ⟨rfl, .present hbody.yields, hbody.normal, ?_⟩
    have := hbody.cost_le
    split <;> omega
  · exact reads_pure ⟨rfl, .absent, by simp [Statement.listExprs], hd⟩

private theorem reads_ifStatement {block : BlockReader} (h : ReadsBlock block)
    (hd : d ≤ maxNesting) :
    Reads (ifStatement block) d fun s d' ys =>
      d' = d ∧ StatementRead d s (.keyword "IF" :: ys) := by
  refine (reads_expression d).bind ?_
  rintro condition d _ ⟨rfl, rfl, hcondition, hcost⟩
  refine reads_expect (.keyword "DO") rfl ?_
  refine (h d _ _).bind ?_
  rintro thenBody d ys ⟨rfl, hthen⟩
  refine (reads_elseBlock h hd).bind ?_
  rintro elseBody d zs ⟨rfl, helse, helseNormal, helseCost⟩
  refine reads_expect (.keyword "END") rfl ?_
  -- What was read part by part is the statement: its terminals, its normal form and its cost.
  refine reads_pure ⟨rfl, ?_, ?_, ?_⟩
  · simpa using Statement.Yields.ifElse hthen.yields helse
  · simpa [Statement.exprs, or_imp, forall_and] using ⟨hcondition, hthen.normal, helseNormal⟩
  · have := hthen.cost_le
    simp only [Statement.cost]
    omega

private theorem reads_forStatement {block : BlockReader} (h : ReadsBlock block) :
    Reads (forStatement block) d fun s d' ys =>
      d' = d ∧ StatementRead d s (.keyword "FOR" :: ys) := by
  refine reads_identifier fun name => ?_
  refine reads_expect (.keyword "IN") rfl ?_
  refine (reads_expression d).bind ?_
  rintro iterable d _ ⟨rfl, rfl, hiterable, hcost⟩
  refine reads_expect (.keyword "DO") rfl ?_
  refine (h d _ _).bind ?_
  rintro body d ys ⟨rfl, hbody⟩
  refine reads_expect (.keyword "END") rfl ?_
  -- The body is one level deeper, and that is all that it costs.
  refine reads_pure ⟨rfl, ?_, ?_, ?_⟩
  · simpa using Statement.Yields.forIn hbody.yields
  · simpa [Statement.exprs] using ⟨hiterable, hbody.normal⟩
  · have := hbody.cost_le
    simp only [Statement.cost]
    omega

private theorem reads_whileStatement {block : BlockReader} (h : ReadsBlock block) :
    Reads (whileStatement block) d fun s d' ys =>
      d' = d ∧ StatementRead d s (.keyword "WHILE" :: ys) := by
  refine (reads_expression d).bind ?_
  rintro condition d _ ⟨rfl, rfl, hcondition, hcost⟩
  refine reads_expect (.keyword "DO") rfl ?_
  -- The body is a block, of which the hypothesis speaks.
  refine (h d _ _).bind ?_
  rintro body d ys ⟨rfl, hbody⟩
  refine reads_expect (.keyword "END") rfl ?_
  refine reads_pure ⟨rfl, ?_, ?_, ?_⟩
  · simpa using Statement.Yields.whileDo hbody.yields
  · simpa [Statement.exprs] using ⟨hcondition, hbody.normal⟩
  · have := hbody.cost_le
    simp only [Statement.cost]
    omega

private theorem reads_returnStatement :
    Reads returnStatement d fun s d' ys =>
      d' = d ∧ StatementRead d s (.keyword "RETURN" :: ys) := by
  refine (reads_expression d).bind ?_
  rintro value d _ ⟨rfl, rfl, hvalue, hcost⟩
  refine reads_expect (.sign ";") rfl ?_
  exact reads_pure ⟨rfl, by simpa using Statement.Yields.returns, by simpa [Statement.exprs], hcost⟩

private theorem reads_plainStatement :
    Reads plainStatement d fun s d' ys => d' = d ∧ StatementRead d s ys := by
  refine (reads_expression d).bind ?_
  rintro first d _ ⟨rfl, rfl, hfirst, hcost⟩
  -- An equals sign makes the expression a target.
  refine reads_choice (.sign "=") rfl ?_ ?_
  · refine (reads_expression d).bind ?_
    rintro value d _ ⟨rfl, rfl, hvalue, hvalueCost⟩
    refine reads_expect (.sign ";") rfl ?_
    refine reads_pure ⟨rfl, ?_, ?_, ?_⟩
    · simpa using @Statement.Yields.assign first value
    · simpa [Statement.exprs] using ⟨hfirst, hvalue⟩
    · simp only [Statement.cost]
      omega
  · refine reads_expect (.sign ";") rfl ?_
    refine reads_pure ⟨rfl, ?_, by simpa [Statement.exprs], hcost⟩
    simpa using Statement.Yields.expression (e := first)

/-- A statement is read by its first word. -/
private theorem reads_statement {block : BlockReader} (h : ReadsBlock block) (hd : d ≤ maxNesting) :
    Reads (statement block) d fun s d' ys => d' = d ∧ StatementRead d s ys := by
  refine reads_sees fun _ => ?_
  refine Reads.ite (fun _ => Reads.map ?_) (fun _ => ?_)
  · refine (reads_declaration hd).imp ?_
    rintro x _ _ ⟨rfl, rfl, hnormal, hcost⟩
    exact ⟨rfl, .declare, hnormal, hcost⟩
  refine reads_choice (.keyword "IF") rfl (reads_ifStatement h hd) ?_
  refine reads_choice (.keyword "FOR") rfl (reads_forStatement h) ?_
  refine reads_choice (.keyword "WHILE") rfl (reads_whileStatement h) ?_
  exact reads_choice (.keyword "RETURN") rfl reads_returnStatement reads_plainStatement

/-- Statements are read up to a closing word, by induction on the rounds. -/
private theorem reads_statements {item : Parse Statement}
    (h : Reads item d fun s d' ys => d' = d ∧ StatementRead d s ys) (first : String)
    (others : List String) (n : Nat) (done : List Statement) (before : List Terminal)
    (hdone : BodyRead d done.reverse before) :
    Reads (statements item first others n done) d fun body d' ys =>
      d' = d ∧ BodyRead d body (before ++ ys) := by
  induction n generalizing done before with
  | zero => exact reads_fail _
  | succ n ih =>
    refine reads_seesAny fun b => ?_
    refine Reads.ite (fun _ => reads_pure ⟨rfl, by simpa using hdone⟩) (fun _ => ?_)
    refine reads_peek fun next => ?_
    cases next with
    | none => exact reads_fail _
    | some t =>
      refine h.bind ?_
      rintro s d ys ⟨rfl, hs⟩
      -- The list is gathered backwards, so the new statement is the last one.
      have hmore : BodyRead d (s :: done).reverse (before ++ ys) := by
        rw [List.reverse_cons]
        exact hdone.concat hs
      refine (ih (s :: done) (before ++ ys) hmore).imp ?_
      rintro body _ zs ⟨rfl, hbody⟩
      exact ⟨rfl, by simpa using hbody⟩

/-- Blocks within any depth, by induction on the depth that is left. -/
private theorem reads_blockWithin (n : Nat) : ReadsBlock (blockWithin n) := by
  induction n with
  | zero => exact fun d first others => reads_fail _
  | succ n ih =>
    -- A block is a level of its own, and empty as long as no statement has been read.
    intro d first others
    refine Reads.restoringDepth (reads_enter fun hroom => ?_)
    refine reads_remaining fun k => ?_
    have hnone : BodyRead (d + 1) [] [] := ⟨.nil, by simp [Statement.listExprs], hroom⟩
    refine (reads_statements (reads_statement ih hroom) first others (k + 1) [] [] hnone).imp ?_
    rintro body _ ys ⟨-, hbody⟩
    exact hbody

/-! ## Programs -/

/-- Parameters are names with annotations. -/
private theorem reads_parameters :
    Reads parameters d fun l d' ys => d' = d ∧ ys = separated Parameter.terminals l := by
  refine reads_sees fun b => ?_
  refine Reads.ite (fun _ => reads_pure ⟨rfl, rfl⟩) (fun _ => ?_)
  have hitem : Reads parameter d fun p d' ys => d' = d ∧ ys = p.terminals ∧ True := by
    refine reads_identifier fun name => ?_
    refine reads_annotated.bind ?_
    rintro type _ _ ⟨rfl, rfl⟩
    exact reads_pure ⟨rfl, by simp [Parameter.terminals], trivial⟩
  exact (reads_commaList hitem).imp fun l _ ys h => ⟨h.1, h.2.1⟩

/-- A method is read with its parameters and its body. -/
private theorem reads_method :
    Reads method d fun m d' ys => d' = d ∧ ((∀ e ∈ Statement.listExprs m.body, e.isNormal = true) ∧
      d + m.cost ≤ maxNesting) ∧ m.Yields ys := by
  refine reads_expect (.keyword "DEF") rfl ?_
  refine reads_identifier fun name => ?_
  refine reads_expect (.sign "(") rfl ?_
  refine reads_parameters.bind ?_
  rintro parameters d _ ⟨rfl, rfl⟩
  refine reads_expect (.sign ")") rfl ?_
  refine reads_annotated.bind ?_
  rintro type d _ ⟨rfl, rfl⟩
  refine reads_expect (.keyword "DO") rfl ?_
  refine (reads_blockWithin _ d _ _).bind ?_
  rintro body d ys ⟨rfl, hbody⟩
  refine reads_expect (.keyword "END") rfl ?_
  refine reads_fresh fun id => ?_
  -- Parameters and annotations are flat, so the cost is that of the body.
  have hcost := hbody.cost_le
  refine reads_pure ⟨rfl, ⟨hbody.normal, by simp only [Method.cost]; omega⟩, ?_⟩
  simpa using Method.Yields.intro (m := ⟨id, name, parameters, type, body⟩) hbody.yields

/-- What a whole program consumes; it starts outside of everything. -/
theorem reads_source :
    Reads source 0 fun s _ ys =>
      s.Yields ys ∧ (∀ e ∈ s.exprs, e.isNormal = true) ∧ s.cost ≤ maxNesting := by
  -- Fields and methods are brought into one form, in which repetition collects them.
  have hfield := (reads_declaration (Nat.zero_le maxNesting)).imp
    (R := fun x d' ys => d' = 0 ∧ ((∀ e ∈ x.initializer.toList, e.isNormal = true) ∧
      initialCost x.initializer ≤ maxNesting) ∧ x.terminals = ys)
    fun x d' ys ⟨hd, hys, hnormal, hcost⟩ => ⟨hd, ⟨hnormal, by omega⟩, hys.symm⟩
  refine (reads_manyAt "LET" hfield).bind ?_
  rintro fields _ _ ⟨rfl, yss, hfields, rfl⟩
  refine (reads_manyAt "DEF" reads_method).bind ?_
  rintro methods _ _ ⟨rfl, zss, hmethods, rfl⟩
  refine reads_peek fun next => ?_
  cases next with
  | some t => exact reads_fail _
  | none =>
    rw [List.forall₂_and_left] at hfields hmethods
    obtain ⟨hfields, hyss⟩ := hfields
    obtain ⟨hmethods, hzss⟩ := hmethods
    refine reads_pure ⟨?_, ?_, ?_⟩
    · rw [← List.forall₂_map_left_iff, List.forall₂_eq_eq_eq] at hyss
      subst hyss
      simpa [List.flatMap] using Source.Yields.intro (s := ⟨fields, methods⟩) hzss
    · intro e he
      simp only [Source.exprs, List.mem_append, List.mem_flatMap] at he
      obtain ⟨x, hx, he⟩ | ⟨m, hm, he⟩ := he
      · exact (hfields x hx).1 e he
      · exact (hmethods m hm).1 e he
    · rw [Source.cost_le_iff]
      exact ⟨fun x hx => (hfields x hx).2, fun m hm => by simpa using (hmethods m hm).2⟩

/-- A program is complete only at the end of the tokens. -/
private theorem ends_source_rest (c : Cursor) :
    Ends source c (fun _ c' => c'.rest = []) fun _ _ => True := by
  have hany : ∀ {α : Type} (p : Parse α) c, Ends p c (fun _ _ => True) fun _ _ => True := by
    intro α p c
    unfold Ends
    split <;> trivial
  refine (hany _ c).bind fun fields c₁ _ _ => (hany _ c₁).bind fun methods c₂ _ _ => ?_
  rw [ends_bind, ends_peek]
  cases hrest : c₂.rest with
  | nil => exact hrest
  | cons t rest => trivial

end Rules

end Parse

/-- A list of tokens that is accepted is the yield of its program, which is in normal form and
    nests no further than allowed. -/
theorem parse_yields {tokens : List Token} (hw : ∀ t ∈ tokens, t.WellFormed) {s : Source}
    (h : parse tokens = .ok s) :
    (∃ ys, s.Yields ys ∧ List.Forall₂ Terminal.Matches ys tokens) ∧
      (∀ e ∈ s.exprs, e.isNormal = true) ∧ s.cost ≤ maxNesting := by
  unfold parse at h
  cases hrun : Parse.source (Cursor.start tokens) with
  | error e c => rw [hrun] at h; exact nomatch h
  | ok s' c =>
    rw [hrun] at h
    cases h
    obtain ⟨ys, ⟨ts, hts, hys⟩, hyields, hrest⟩ :=
      (Parse.reads_source (Cursor.start tokens) hw rfl).of_ok hrun
    -- A program ends at the last token, so what was consumed is everything.
    rw [(Parse.ends_source_rest _).of_ok hrun, List.append_nil] at hts
    obtain rfl : tokens = ts := hts
    exact ⟨⟨ys, hyields, hys⟩, hrest⟩

/-- Parsing is sound for the grammar: the tokens are those of the program that is read from them,
    each of them once and in their order, and its operators bind as their levels tell. -/
theorem parse_sound (tokens : List Token) (hw : ∀ t ∈ tokens, t.WellFormed) (s : Source)
    (h : parse tokens = .ok s) :
    (∃ ys, s.Yields ys ∧ List.Forall₂ Terminal.Matches ys tokens) ∧
      ∀ e ∈ s.exprs, e.isNormal = true := by
  obtain ⟨hyields, hnormal, _⟩ := parse_yields hw h
  exact ⟨hyields, hnormal⟩

/-- The tokens of `LET x = (1 + 2) * 3;`. -/
def scaledSumTokens : List Token :=
  [⟨.identifier, "LET", 0⟩, ⟨.identifier, "x", 4⟩, ⟨.operator, "=", 6⟩, ⟨.operator, "(", 8⟩,
    ⟨.integer, "1", 9⟩, ⟨.operator, "+", 11⟩, ⟨.integer, "2", 13⟩, ⟨.operator, ")", 14⟩,
    ⟨.operator, "*", 16⟩, ⟨.integer, "3", 18⟩, ⟨.operator, ";", 19⟩]

/-- What they are read as. -/
def scaledSum : Source :=
  ⟨[⟨6, "x", none, some (.binary 5 .times
    (.group 3 (.binary 2 .plus (.literal 0 (.integer 1)) (.literal 1 (.integer 2))))
    (.literal 4 (.integer 3)))⟩], []⟩

/-- The parentheses are in the tree, for without them the product would be taken first. -/
theorem scaledSum_is_read :
    (∃ ys, scaledSum.Yields ys ∧ List.Forall₂ Terminal.Matches ys scaledSumTokens) ∧
      ∀ e ∈ scaledSum.exprs, e.isNormal = true := by
  refine parse_sound scaledSumTokens ?_ scaledSum (by cbv)
  -- The tokens are single signs, digits and words, each well-formed by its class.
  have hsign : ∀ {c : Char} (offset : Nat), isOperatorChar c = true →
      Token.WellFormed ⟨.operator, String.ofList [c], offset⟩ := by
    intro c offset hc
    simpa [Token.WellFormed] using Token.Kind.Lexeme.operator hc
  have hdigit : ∀ {c : Char} (offset : Nat), c.isDigit = true →
      Token.WellFormed ⟨.integer, String.ofList [c], offset⟩ := by
    intro c offset hc
    have hdigits : Numeral.isDigits [c] = true := by simpa [Numeral.isDigits]
    simpa [Token.WellFormed] using Token.Kind.Lexeme.integer (.inl rfl) hdigits
  simp only [scaledSumTokens, List.forall_mem_cons]
  exact ⟨.identifier rfl (List.all_eq_true.mp rfl), .identifier rfl (List.all_eq_true.mp rfl),
    hsign _ rfl, hsign _ rfl, hdigit _ rfl, hsign _ rfl, hdigit _ rfl, hsign _ rfl, hsign _ rfl,
    hdigit _ rfl, hsign _ rfl, by simp⟩

end LetLang
