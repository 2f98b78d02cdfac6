import LetLang.Proofs.Cursor
import LetLang.Proofs.Placement

/-! # Following the parser through the tokens

Where the parser stands, how deep it is nested, and at which tokens it has found what it returns.
`Tracks tokens p i d Q` says all three of a step that starts before the token `i` and is nested
`d` deep.  No token is given back and no nesting is lost, also if the step fails, and the nesting
stays within `maxNesting`; if the step succeeds, `Q` holds of its result, of the number of the
token before which it ends, and of the nesting there.

* `tracks_expression`, `tracks_statement`, …   one lemma for each rule of the grammar
* `Source.stands_of_parse`                     a program that is read stands at its tokens -/

namespace LetLang

/-! ## Places -/

namespace Cursor

/-- The next token is the one with the number `i`. -/
structure At (tokens : List Token) (i : Nat) (c : Cursor) : Prop where
  rest_eq : c.rest = tokens.drop i
  le : i ≤ tokens.length

/-- The place is `j`, not before `i` and nested no less than `d`, but no deeper than allowed. -/
structure Reached (tokens : List Token) (i d j : Nat) (c : Cursor) : Prop where
  place : c.At tokens j
  le : i ≤ j
  depth_ge : d ≤ c.depth
  depth_le : c.depth ≤ maxNesting

section

variable {tokens : List Token} {i : Nat} {c c' : Cursor} {t : Token}

/-- Parsing starts at the first token. -/
private theorem at_start (tokens : List Token) : (start tokens).At tokens 0 := ⟨rfl, Nat.zero_le _⟩

/-- The place is what is left of the tokens. -/
theorem At.of_rest_eq (h : c.At tokens i) (hrest : c'.rest = c.rest) : c'.At tokens i :=
  ⟨hrest.trans h.rest_eq, h.le⟩

/-- The next token is the one at the place. -/
private theorem At.head?_eq (h : c.At tokens i) : c.rest.head? = tokens[i]? := by
  rw [h.rest_eq, List.head?_drop]

/-- Advancing goes to the next place. -/
theorem At.advance (h : c.At tokens i) (ht : tokens[i]? = some t) :
    c.advance.At tokens (i + 1) where
  rest_eq := by
    obtain ⟨rest, hrest⟩ := List.head?_eq_some_iff.mp (h.head?_eq.trans ht)
    rw [advance_rest hrest, ← List.tail_drop, ← h.rest_eq, hrest]
    rfl
  le := (List.getElem?_eq_some_iff.mp ht).1

/-- What is seen stands at the place. -/
private theorem At.spellsAt (h : c.At tokens i) {lexeme : String} (hsees : c.sees lexeme = true) :
    SpellsAt tokens i lexeme := by
  obtain ⟨t, rest, hrest, ht⟩ := exists_of_sees hsees
  refine ⟨t, ?_, ht⟩
  rw [← h.head?_eq, hrest]
  rfl

/-- What stands at the place is seen. -/
theorem At.sees (h : c.At tokens i) {lexeme : String} (hspells : SpellsAt tokens i lexeme) :
    c.sees lexeme = true := by
  obtain ⟨t, ht, hspells⟩ := hspells
  obtain ⟨rest, hrest⟩ := List.head?_eq_some_iff.mp (h.head?_eq.trans ht)
  unfold Cursor.sees
  rw [hrest]
  exact hspells

end

end Cursor

namespace Parse

variable {α β : Type} {tokens : List Token}

/-! ## Steps -/

/-- What the step does from the cursor, which stands before the token `i` and is nested `d` deep. -/
def TracksFrom (tokens : List Token) (p : Parse α) (c : Cursor) (i d : Nat)
    (Q : α → (j e : Nat) → Prop) : Prop :=
  Ends p c (fun a c' => ∃ j, c'.Reached tokens i d j ∧ Q a j c'.depth)
    (fun _ c' => ∃ j, c'.Reached tokens i d j)

/-- What the step does wherever it starts before the token `i` and is nested `d` deep. -/
def Tracks (tokens : List Token) (p : Parse α) (i d : Nat) (Q : α → (j e : Nat) → Prop) : Prop :=
  ∀ c : Cursor, c.At tokens i → c.depth = d → d ≤ maxNesting → TracksFrom tokens p c i d Q

section Rules

variable {i d : Nat} {Q : α → Nat → Nat → Prop}

/-- What is tracked may be described more loosely. -/
theorem Tracks.imp {R : α → Nat → Nat → Prop} {p : Parse α} (h : Tracks tokens p i d Q)
    (hR : ∀ a j e, Q a j e → R a j e) : Tracks tokens p i d R := by
  intro c hc hd hmax
  refine (h c hc hd hmax).mono ?_
  rintro a c' - ⟨j, hreached, hQ⟩
  exact ⟨j, hreached, hR _ _ _ hQ⟩

/-- What follows goes on where the step has ended, and behind where it has started. -/
private theorem TracksFrom.of_reached {p : Parse α} {c : Cursor} {i' d' : Nat}
    (h : TracksFrom tokens p c i' d' Q) (hi : i ≤ i') (hd : d ≤ d') :
    TracksFrom tokens p c i d Q := by
  have hreached : ∀ {j c'}, Cursor.Reached tokens i' d' j c' → c'.Reached tokens i d j :=
    fun h => ⟨h.place, Nat.le_trans hi h.le, Nat.le_trans hd h.depth_ge, h.depth_le⟩
  refine h.imp ?_ ?_
  · rintro a c' - ⟨j, hj, hQ⟩
    exact ⟨j, hreached hj, hQ⟩
  · rintro e c' - ⟨j, hj⟩
    exact ⟨j, hreached hj⟩

/-- In a sequence the second rule starts where the first ended. -/
theorem Tracks.bind {R : β → Nat → Nat → Prop} {p : Parse α} {f : α → Parse β}
    (hp : Tracks tokens p i d Q) (hf : ∀ a j e, Q a j e → Tracks tokens (f a) j e R) :
    Tracks tokens (p >>= f) i d R := by
  intro c hc hd hmax
  refine (hp c hc hd hmax).bind ?_
  rintro a c₁ - ⟨j, hj, hQ⟩
  exact (hf a j c₁.depth hQ c₁ hj.place rfl hj.depth_le).of_reached hj.le hj.depth_ge

/-- A function of the value moves nothing. -/
theorem Tracks.map {R : β → Nat → Nat → Prop} {p : Parse α} {f : α → β}
    (h : Tracks tokens p i d fun a j e => R (f a) j e) : Tracks tokens (f <$> p) i d R := by
  intro c hc hd hmax
  unfold TracksFrom
  rw [ends_map]
  exact h c hc hd hmax

theorem Tracks.ite {b : Prop} [Decidable b] {p q : Parse α} (hp : b → Tracks tokens p i d Q)
    (hq : ¬b → Tracks tokens q i d Q) : Tracks tokens (if b then p else q) i d Q := by
  split
  · exact hp ‹_›
  · exact hq ‹_›

/-- Where a rule fails at once, it has reached its start. -/
private theorem reached_self {c : Cursor} (hc : c.At tokens i) (hd : c.depth = d)
    (hmax : d ≤ maxNesting) :
    c.Reached tokens i d i :=
  ⟨hc, Nat.le_refl _, Nat.le_of_eq hd.symm, hd ▸ hmax⟩

theorem tracks_pure {a : α} (h : Q a i d) : Tracks tokens (pure a) i d Q := by
  rintro c hc rfl hmax
  exact ⟨i, reached_self hc rfl hmax, h⟩

/-- An error is placed where the rule stands. -/
private theorem tracks_fail (fault : ParseFault) : Tracks tokens (fail fault) i d Q := by
  rintro c hc rfl hmax
  exact ⟨i, reached_self hc rfl hmax⟩

/-- A step that neither consumes anything nor nests. -/
private theorem tracks_quiet {R : β → Nat → Nat → Prop} {p : Parse α} {f : α → Parse β}
    (hp : ∀ c, Ends p c (fun _ c' => c'.rest = c.rest ∧ c'.depth = c.depth) fun _ _ => False)
    (h : ∀ a, Tracks tokens (f a) i d R) : Tracks tokens (p >>= f) i d R := by
  intro c hc hd hmax
  refine Ends.bind ((hp c).imp (fun _ _ _ h => h) fun _ _ _ h => h.elim) ?_
  rintro a c' - ⟨hrest, hdepth⟩
  exact h a c' (hc.of_rest_eq hrest) (hdepth.trans hd) hmax

section Steps

variable {lexeme : String}

/-- Looking ahead moves nothing. -/
private theorem tracks_sees {f : Bool → Parse α} (h : ∀ b, Tracks tokens (f b) i d Q) :
    Tracks tokens (sees lexeme >>= f) i d Q := tracks_quiet (fun _ => ⟨rfl, rfl⟩) h

private theorem tracks_remaining {f : Nat → Parse α} (h : ∀ n, Tracks tokens (f n) i d Q) :
    Tracks tokens (remaining >>= f) i d Q := tracks_quiet (fun _ => ⟨rfl, rfl⟩) h

theorem tracks_fresh {f : NodeId → Parse α} (h : ∀ id, Tracks tokens (f id) i d Q) :
    Tracks tokens (fresh >>= f) i d Q := tracks_quiet (fun _ => ⟨rfl, rfl⟩) h

/-- Going deeper fails in place or adds one to the depth. -/
theorem tracks_enter {f : Unit → Parse α} (h : Tracks tokens (f ()) i (d + 1) Q) :
    Tracks tokens (enter >>= f) i d Q := by
  rintro c hc rfl hmax
  unfold TracksFrom
  rw [ends_bind, ends_enter]
  split
  · exact ⟨i, reached_self hc rfl hmax⟩
  · have hdeeper := h { c with depth := c.depth + 1 } (hc.of_rest_eq rfl) rfl (by omega)
    exact hdeeper.of_reached (Nat.le_refl _) (Nat.le_succ _)

/-- What follows the next token starts behind it. -/
theorem tracks_advance {t : Token} {f : Unit → Parse α} (ht : tokens[i]? = some t)
    (h : Tracks tokens (f ()) (i + 1) d Q) : Tracks tokens (advance >>= f) i d Q := by
  intro c hc hd hmax
  have hnext := hc.advance ht
  have hbehind := h c.advance hnext ((Cursor.advance_depth c).trans hd) hmax
  exact hbehind.of_reached (Nat.le_succ _) (Nat.le_refl _)

/-- A choice by whether the word or sign comes next. -/
theorem tracks_choice {p q : Parse α} (hp : SpellsAt tokens i lexeme → Tracks tokens p (i + 1) d Q)
    (hq : Tracks tokens q i d Q) : Tracks tokens (do if ← accept lexeme then p else q) i d Q := by
  intro c hc hd hmax
  unfold TracksFrom
  rw [ends_bind, ends_accept]
  split
  · rename_i hsees
    have hspells := hc.spellsAt hsees
    have ⟨t, ht, _⟩ := hspells
    exact tracks_advance (f := fun _ => p) ht (hp hspells) c hc hd hmax
  · exact hq c hc hd hmax

/-- What is expected stands at the place, or the rule fails there. -/
private theorem tracks_expect {f : Unit → Parse α}
    (h : SpellsAt tokens i lexeme → Tracks tokens (f ()) (i + 1) d Q) :
    Tracks tokens (expect lexeme >>= f) i d Q := by
  have hexpect : Tracks tokens (expect lexeme) i d fun _ j e =>
      SpellsAt tokens i lexeme ∧ j = i + 1 ∧ e = d :=
    tracks_choice (fun hspells => tracks_pure ⟨hspells, rfl, rfl⟩) (tracks_fail _)
  refine hexpect.bind ?_
  rintro _ _ _ ⟨hspells, rfl, rfl⟩
  exact h hspells

/-- A choice by whether one of the words comes next. -/
private theorem tracks_seesAny {words : List String} {p q : Parse α}
    (hp : (∃ w ∈ words, SpellsAt tokens i w) → Tracks tokens p i d Q) (hq : Tracks tokens q i d Q) :
    Tracks tokens (do if ← seesAny words then p else q) i d Q := by
  intro c hc hd hmax
  show TracksFrom tokens (if words.any c.sees = true then p else q) c i d Q
  split
  · rename_i hany
    obtain ⟨w, hw, hsees⟩ := List.any_eq_true.mp hany
    exact hp ⟨w, hw, hc.spellsAt hsees⟩ c hc hd hmax
  · exact hq c hc hd hmax

/-- The next token is the one at the place. -/
private theorem tracks_peek {f : Option Token → Parse α} (h : Tracks tokens (f tokens[i]?) i d Q) :
    Tracks tokens (peek >>= f) i d Q := by
  intro c hc hd hmax
  show TracksFrom tokens (f c.rest.head?) c i d Q
  rw [hc.head?_eq]
  exact h c hc hd hmax

/-- A name stands at the place, or the rule fails there. -/
theorem tracks_identifier {f : String → Parse α}
    (h : ∀ name, NameAt tokens i name → Tracks tokens (f name) (i + 1) d Q) :
    Tracks tokens (identifier >>= f) i d Q := by
  -- The token is looked at and then taken, so the cursor is one place further.
  have hname : Tracks tokens identifier i d fun name j e =>
      NameAt tokens i name ∧ j = i + 1 ∧ e = d := by
    refine tracks_peek ?_
    cases ht : tokens[i]? with
    | none => exact tracks_fail _
    | some t =>
      refine Tracks.ite (fun hkind => ?_) fun _ => tracks_fail _
      exact tracks_advance ht (tracks_pure ⟨⟨t, ht, hkind, rfl⟩, rfl, rfl⟩)
  refine hname.bind ?_
  rintro name _ _ ⟨hat, rfl, rfl⟩
  exact h name hat

end Steps

/-- The nesting at the end of the step does not matter. -/
theorem Tracks.restoringDepth {Q : α → Nat → Prop} {p : Parse α}
    (h : Tracks tokens p i d fun a j _ => Q a j) :
    Tracks tokens (restoringDepth p) i d fun a j e => e = d ∧ Q a j := by
  rintro c hc rfl hmax
  unfold TracksFrom
  rw [ends_restoringDepth]
  refine (h c hc rfl hmax).mono ?_
  rintro a c' - ⟨j, hj, hQ⟩
  exact ⟨j, ⟨hj.place.of_rest_eq rfl, hj.le, Nat.le_refl _, hmax⟩, rfl, hQ⟩

/-! ## Repetition -/

/-- The step reads what stands there, and behind it it is nested as before. -/
def TracksItem (tokens : List Token) (p : Parse α) (P : Standing α) : Prop :=
  ∀ i d, Tracks tokens p i d fun a j e => e = d ∧ ∃ ps, P a i j ps

section Repetition

variable {item : Parse α} {P : Standing α}

/-- Lists are tracked item by item, by induction on the rounds. -/
private theorem tracks_commaRounds (h : TracksItem tokens item P) (n : Nat) {done : List α}
    {i₀ : Nat} {ps : List Place} (hdone : Separated tokens P done.reverse i₀ i ps) :
    Tracks tokens (commaRounds item n done) i d fun items j e =>
      e = d ∧ ∃ ps, Separated tokens P items i₀ j ps := by
  induction n generalizing done i ps with
  | zero => exact tracks_pure ⟨rfl, ps, hdone⟩
  | succ n ih =>
    refine tracks_choice (fun hcomma => ?_) (tracks_pure ⟨rfl, ps, hdone⟩)
    refine (h (i + 1) d).bind ?_
    rintro a j _ ⟨rfl, qs, ha⟩
    -- Collected in reverse, the new item is the first one; among the tokens it is the last.
    have hmore := hdone.snoc hcomma ha
    rw [← List.reverse_cons] at hmore
    exact ih hmore

/-- A list has at least one item. -/
private theorem tracks_commaList (h : TracksItem tokens item P) :
    TracksItem tokens (commaList item) (Separated tokens P) := by
  intro i d
  refine (h i d).bind ?_
  rintro first j _ ⟨rfl, ps, hfirst⟩
  exact tracks_remaining fun n => tracks_commaRounds h n (.one hfirst)

/-- Repetitions are tracked item after item. -/
private theorem tracks_manyRounds (lexeme : String) (h : TracksItem tokens item P) (n : Nat)
    {done : List α} {i₀ : Nat} {ps : List Place} (hdone : InRow P done.reverse i₀ i ps) :
    Tracks tokens (manyRounds lexeme item n done) i d fun items j e =>
      e = d ∧ ∃ ps, InRow P items i₀ j ps := by
  induction n generalizing done i ps with
  | zero => exact tracks_pure ⟨rfl, ps, hdone⟩
  | succ n ih =>
    refine tracks_sees fun _ => Tracks.ite (fun _ => ?_) fun _ => tracks_pure ⟨rfl, ps, hdone⟩
    refine (h i d).bind ?_
    rintro a j _ ⟨rfl, qs, ha⟩
    -- The items read so far are kept in reverse.
    have hmore := hdone.snoc ha
    rw [← List.reverse_cons] at hmore
    exact ih hmore

private theorem tracks_manyAt (lexeme : String) (h : TracksItem tokens item P) :
    TracksItem tokens (manyAt lexeme item) (InRow P) := by
  intro i d
  exact tracks_remaining fun n => tracks_manyRounds lexeme h n .nil

end Repetition

/-! ## Expressions -/

section Expressions

variable {expression : Parse Expr}

/-- The step reads expressions. -/
abbrev TracksExpression (tokens : List Token) (p : Parse Expr) : Prop :=
  TracksItem tokens p (Expr.Stands tokens)

/-- Arguments stand between their parentheses. -/
theorem tracks_arguments (h : TracksExpression tokens expression)
    (hopen : SpellsAt tokens i "(") :
    Tracks tokens (arguments expression) (i + 1) d fun items j e =>
      e = d ∧ ∃ ps, Enclosed tokens (Expr.Stands tokens) items i j ps := by
  refine tracks_choice (fun hclose => tracks_pure ⟨rfl, [], .none hopen hclose⟩) ?_
  refine (tracks_commaList h (i + 1) d).bind ?_
  rintro items j _ ⟨rfl, ps, hitems⟩
  exact tracks_expect fun hclose => tracks_pure ⟨rfl, ps, .some hopen hitems hclose⟩

/-- A primary expression starts at its first token. -/
theorem tracks_primary (h : TracksExpression tokens expression) :
    TracksExpression tokens (primary expression) := by
  intro i d
  refine tracks_peek ?_
  cases ht : tokens[i]? with
  | none => exact tracks_fail _
  | some t =>
    cases hliteral : Literal.ofToken? t with
    | some value =>
      simp only [hliteral]
      refine tracks_advance ht (tracks_fresh fun id => ?_)
      exact tracks_pure ⟨rfl, _, .literal ⟨t, ht, hliteral⟩⟩
    | none =>
      simp only [hliteral]
      cases hkind : t.kind with
      | identifier =>
        have hname : NameAt tokens i t.lexeme := ⟨t, ht, hkind, rfl⟩
        refine tracks_advance ht (tracks_choice (fun hopen => ?_) ?_)
        · refine (tracks_arguments h hopen).bind ?_
          rintro items j _ ⟨rfl, ps, hitems⟩
          exact tracks_fresh fun id => tracks_pure ⟨rfl, _, .call hname hitems⟩
        · exact tracks_fresh fun id => tracks_pure ⟨rfl, _, .var hname⟩
      | operator =>
        -- No other sign starts an expression than an open parenthesis.
        refine Tracks.ite (fun hlexeme => ?_) fun _ => tracks_fail _
        have hopen : SpellsAt tokens i "(" := ⟨t, ht, by simp [Token.spells, hkind, hlexeme]⟩
        refine tracks_advance ht ((h (i + 1) d).bind ?_)
        rintro inner j _ ⟨rfl, ps, hinner⟩
        refine tracks_choice (fun hclose => ?_) (tracks_fail _)
        exact tracks_fresh fun id => tracks_pure ⟨rfl, _, .group hopen hinner hclose⟩
      | _ => exact tracks_fail _

/-- With each dot the place before it stays the start of the whole. -/
private theorem tracks_links (h : TracksExpression tokens expression) (n : Nat) {receiver : Expr}
    {i₀ : Nat} {ps : List Place} (hreceiver : receiver.Stands tokens i₀ i ps) :
    Tracks tokens (links expression n receiver) i d fun e j _ =>
      ∃ ps, e.Stands tokens i₀ j ps := by
  -- Each dot nests one deeper, and `secondary` takes it all back at the end.
  induction n generalizing receiver i d ps with
  | zero => exact tracks_pure ⟨ps, hreceiver⟩
  | succ n ih =>
    refine tracks_choice (fun hdot => ?_) (tracks_pure ⟨ps, hreceiver⟩)
    refine tracks_enter (tracks_identifier fun name hname => ?_)
    refine tracks_choice (fun hopen => ?_) ?_
    · refine (tracks_arguments h hopen).bind ?_
      rintro items j _ ⟨rfl, qs, hitems⟩
      exact tracks_fresh fun id => ih (.invoke hreceiver hdot hname hitems)
    · exact tracks_fresh fun id => ih (.field hreceiver hdot hname)

/-- The links of a chain stand one after the other. -/
theorem tracks_secondary (h : TracksExpression tokens expression) :
    TracksExpression tokens (secondary expression) := by
  intro i d
  refine Tracks.restoringDepth ((tracks_primary h i d).bind ?_)
  rintro first j _ ⟨rfl, ps, hfirst⟩
  exact tracks_remaining fun n => tracks_links h n hfirst

/-- An operator that is found stands at the place. -/
private theorem tracks_operatorAt {level : Level} {f : Option Operator → Parse α}
    {Q : α → Nat → Nat → Prop} (hnone : Tracks tokens (f none) i d Q)
    (hsome : ∀ o, SpellsAt tokens i o.symbol → Tracks tokens (f (some o)) i d Q) :
    Tracks tokens (operatorAt level >>= f) i d Q := by
  intro c hc hd hmax
  show TracksFrom tokens (f (level.operators.find? fun o => c.sees o.symbol)) c i d Q
  cases hfind : level.operators.find? fun o => c.sees o.symbol with
  | none => exact hnone c hc hd hmax
  | some o =>
    have hsees : c.sees o.symbol = true := by simpa using List.find?_some hfind
    exact hsome o (hc.spellsAt hsees) c hc hd hmax

/-- A chain grows to the right of its first operand. -/
private theorem tracks_chain {operand : Parse Expr} (level : Level)
    (h : TracksExpression tokens operand)
    (n : Nat) {left : Expr} {i₀ : Nat} {ps : List Place} (hleft : left.Stands tokens i₀ i ps) :
    Tracks tokens (chain level operand n left) i d fun e j _ => ∃ ps, e.Stands tokens i₀ j ps := by
  induction n generalizing left i d ps with
  | zero => exact tracks_pure ⟨ps, hleft⟩
  | succ n ih =>
    refine tracks_operatorAt (tracks_pure ⟨ps, hleft⟩) fun operator hoperator => ?_
    have ⟨t, ht, _⟩ := hoperator
    refine tracks_enter (tracks_advance ht ((h (i + 1) (d + 1)).bind ?_))
    rintro right j _ ⟨rfl, qs, hright⟩
    exact tracks_fresh fun id => ih (.binary hleft hoperator hright)

/-- A level is its operands and the operators between them. -/
theorem tracks_binaryLevel {operand : Parse Expr} (level : Level)
    (h : TracksExpression tokens operand) :
    TracksExpression tokens (binaryLevel level operand) := by
  intro i d
  refine Tracks.restoringDepth ((h i d).bind ?_)
  rintro left j _ ⟨rfl, ps, hleft⟩
  exact tracks_remaining fun n => tracks_chain level h n hleft

/-- Expressions within any depth, by induction on the depth that is left. -/
private theorem tracks_expressionWithin (n : Nat) :
    TracksExpression tokens (expressionWithin n) := by
  induction n with
  | zero => exact fun _ _ => tracks_fail _
  | succ n ih =>
    intro i d
    have tight := tracks_binaryLevel .multiplicative (tracks_secondary ih)
    have loose := tracks_binaryLevel .logical
      (tracks_binaryLevel .comparison (tracks_binaryLevel .additive tight))
    refine Tracks.restoringDepth (tracks_enter ((loose i (d + 1)).imp ?_))
    rintro e j _ ⟨_, hstands⟩
    exact hstands

theorem tracks_expression : TracksExpression tokens Parse.expression :=
  tracks_expressionWithin (maxNesting + 1)

end Expressions

/-! ## Statements -/

private theorem tracks_annotation :
    Tracks tokens annotation i d fun type j e => e = d ∧ AnnotationStands tokens type i j := by
  refine tracks_choice (fun hcolon => ?_) (tracks_pure ⟨rfl, .none⟩)
  exact tracks_identifier fun name hname => tracks_pure ⟨rfl, .some hcolon hname⟩

/-- An initial value stands behind an equals sign. -/
private theorem tracks_initialValue : TracksItem tokens initialValue (InitialStands tokens) := by
  intro i d
  refine tracks_choice (fun hequals => Tracks.map ?_) (tracks_pure ⟨rfl, [], .none⟩)
  refine (tracks_expression (i + 1) d).imp ?_
  rintro e j _ ⟨rfl, ps, he⟩
  exact ⟨rfl, ps, .some hequals he⟩

/-- A declaration stands from `LET` to its semicolon. -/
theorem tracks_declaration : TracksItem tokens declaration (Declaration.Stands tokens) := by
  intro i d
  refine tracks_expect fun hlet => tracks_identifier fun name hname => ?_
  refine tracks_annotation.bind ?_
  rintro type j _ ⟨rfl, htype⟩
  refine (tracks_initialValue j _).bind ?_
  rintro value k _ ⟨rfl, ps, hvalue⟩
  refine tracks_expect fun hend => tracks_fresh fun id => ?_
  exact tracks_pure ⟨rfl, _, .intro (d := ⟨id, name, type, value⟩) hlet hname htype hvalue hend⟩

/-- The reader reads statements up to one of the words that it is given. -/
def TracksBlock (tokens : List Token) (block : BlockReader) : Prop :=
  ∀ first others i d, Tracks tokens (block first others) i d fun body j e => e = d ∧
    (∃ ps, InRow (Statement.Stands tokens) body i j ps) ∧ ∃ w ∈ first :: others, SpellsAt tokens j w

section Statements

variable {block : BlockReader}

/-- An `ELSE` stands with its block or not at all. -/
private theorem tracks_elseBlock (h : TracksBlock tokens block) :
    Tracks tokens (elseBlock block) i d fun body j e => e = d ∧ (body = [] ∧ j = i ∨
      SpellsAt tokens i "ELSE" ∧ ∃ ps, InRow (Statement.Stands tokens) body (i + 1) j ps) := by
  refine tracks_choice (fun helse => ?_) (tracks_pure ⟨rfl, .inl ⟨rfl, rfl⟩⟩)
  refine (h "END" [] (i + 1) d).imp ?_
  rintro body j _ ⟨rfl, hbody, _⟩
  exact ⟨rfl, .inr ⟨helse, hbody⟩⟩

private theorem tracks_ifStatement (h : TracksBlock tokens block) (hif : SpellsAt tokens i "IF") :
    Tracks tokens (ifStatement block) (i + 1) d fun s j e =>
      e = d ∧ ∃ ps, s.Stands tokens i j ps := by
  refine (tracks_expression (i + 1) d).bind ?_
  rintro condition j _ ⟨rfl, ps, hcondition⟩
  refine tracks_expect fun hdo => ?_
  refine (h "ELSE" ["END"] (j + 1) _).bind ?_
  rintro thenBody k _ ⟨rfl, ⟨qs, hthen⟩, _⟩
  refine (tracks_elseBlock h).bind ?_
  rintro elseBody l _ ⟨rfl, hbody⟩
  refine tracks_expect fun hend => tracks_pure ⟨rfl, ?_⟩
  -- Without an `ELSE` the second body is empty and takes up no tokens.
  obtain ⟨rfl, rfl⟩ | ⟨helse, rs, hbody⟩ := hbody
  · exact ⟨_, .ifOnly hif hcondition hdo hthen hend⟩
  · exact ⟨_, .ifElse hif hcondition hdo hthen helse hbody hend⟩

private theorem tracks_forStatement (h : TracksBlock tokens block)
    (hfor : SpellsAt tokens i "FOR") :
    Tracks tokens (forStatement block) (i + 1) d fun s j e =>
      e = d ∧ ∃ ps, s.Stands tokens i j ps := by
  refine tracks_identifier fun name hname => tracks_expect fun hin => ?_
  refine (tracks_expression (i + 3) d).bind ?_
  rintro iterable j _ ⟨rfl, ps, hiterable⟩
  refine tracks_expect fun hdo => ?_
  refine (h "END" [] (j + 1) _).bind ?_
  rintro body k _ ⟨rfl, ⟨qs, hbody⟩, _⟩
  exact tracks_expect fun hend =>
    tracks_pure ⟨rfl, _, .forIn hfor hname hin hiterable hdo hbody hend⟩

private theorem tracks_whileStatement (h : TracksBlock tokens block)
    (hwhile : SpellsAt tokens i "WHILE") :
    Tracks tokens (whileStatement block) (i + 1) d fun s j e =>
      e = d ∧ ∃ ps, s.Stands tokens i j ps := by
  refine (tracks_expression (i + 1) d).bind ?_
  rintro condition j _ ⟨rfl, ps, hcondition⟩
  refine tracks_expect fun hdo => ?_
  refine (h "END" [] (j + 1) _).bind ?_
  rintro body k _ ⟨rfl, ⟨qs, hbody⟩, _⟩
  exact tracks_expect fun hend =>
    tracks_pure ⟨rfl, _, .whileDo hwhile hcondition hdo hbody hend⟩

private theorem tracks_returnStatement (hreturn : SpellsAt tokens i "RETURN") :
    Tracks tokens returnStatement (i + 1) d fun s j e => e = d ∧ ∃ ps, s.Stands tokens i j ps := by
  refine (tracks_expression (i + 1) d).bind ?_
  rintro value j _ ⟨rfl, ps, hvalue⟩
  exact tracks_expect fun hend => tracks_pure ⟨rfl, _, .returns hreturn hvalue hend⟩

private theorem tracks_plainStatement :
    TracksItem tokens plainStatement (Statement.Stands tokens) := by
  intro i d
  refine (tracks_expression i d).bind ?_
  rintro first j _ ⟨rfl, ps, hfirst⟩
  refine tracks_choice (fun hequals => ?_) ?_
  · refine (tracks_expression (j + 1) _).bind ?_
    rintro value k _ ⟨rfl, qs, hvalue⟩
    exact tracks_expect fun hend => tracks_pure ⟨rfl, _, .assign hfirst hequals hvalue hend⟩
  · exact tracks_expect fun hend => tracks_pure ⟨rfl, _, .expression hfirst hend⟩

/-- Statements start with their first word. -/
theorem tracks_statement (h : TracksBlock tokens block) :
    TracksItem tokens (statement block) (Statement.Stands tokens) := by
  intro i d
  refine tracks_sees fun _ => Tracks.ite (fun _ => Tracks.map ?_) fun _ => ?_
  · refine (tracks_declaration i d).imp ?_
    rintro x j _ ⟨rfl, ps, hx⟩
    exact ⟨rfl, ps, .declare hx⟩
  refine tracks_choice (tracks_ifStatement h) ?_
  refine tracks_choice (tracks_forStatement h) ?_
  refine tracks_choice (tracks_whileStatement h) ?_
  exact tracks_choice tracks_returnStatement (tracks_plainStatement i d)

/-- Blocks are tracked statement by statement, up to a closing word. -/
private theorem tracks_statements {item : Parse Statement}
    (h : TracksItem tokens item (Statement.Stands tokens)) (first : String) (others : List String)
    (n : Nat) {done : List Statement} {i₀ : Nat} {ps : List Place}
    (hdone : InRow (Statement.Stands tokens) done.reverse i₀ i ps) :
    Tracks tokens (statements item first others n done) i d fun body j e => e = d ∧
      (∃ ps, InRow (Statement.Stands tokens) body i₀ j ps) ∧
      ∃ w ∈ first :: others, SpellsAt tokens j w := by
  induction n generalizing done i ps with
  | zero => exact tracks_fail _
  | succ n ih =>
    refine tracks_seesAny (fun hword => tracks_pure ⟨rfl, ⟨ps, hdone⟩, hword⟩) ?_
    refine tracks_peek ?_
    cases tokens[i]? with
    | none => exact tracks_fail _
    | some t =>
      refine (h i d).bind ?_
      rintro s j _ ⟨rfl, qs, hs⟩
      -- The list is gathered backwards, so the new statement is the last one.
      have hmore := hdone.snoc hs
      rw [← List.reverse_cons] at hmore
      exact ih hmore

end Statements

/-- Blocks within any depth, by induction on the depth that is left. -/
private theorem tracks_blockWithin (n : Nat) : TracksBlock tokens (blockWithin n) := by
  induction n with
  | zero => exact fun _ _ _ _ => tracks_fail _
  | succ n ih =>
    intro first others i d
    refine Tracks.restoringDepth (tracks_enter (tracks_remaining fun k => ?_))
    refine (tracks_statements (tracks_statement ih) first others (k + 1) .nil).imp ?_
    rintro body j _ ⟨_, hbody⟩
    exact hbody

theorem tracks_block : TracksBlock tokens block := tracks_blockWithin (maxNesting + 1)

/-! ## Programs -/

/-- Parameters stand in a list. -/
private theorem tracks_parameters :
    Tracks tokens parameters i d fun l j e => e = d ∧ (l = [] ∧ j = i ∨
      ∃ ps, Separated tokens (Parameter.Stands tokens) l i j ps) := by
  have hitem : TracksItem tokens parameter (Parameter.Stands tokens) := by
    intro i d
    refine tracks_identifier fun name hname => tracks_annotation.bind ?_
    rintro type j _ ⟨rfl, htype⟩
    exact tracks_pure ⟨rfl, _, .intro (p := ⟨name, type⟩) hname htype⟩
  refine tracks_sees fun _ => Tracks.ite (fun _ => tracks_pure ⟨rfl, .inl ⟨rfl, rfl⟩⟩) fun _ => ?_
  refine (tracks_commaList hitem i d).imp ?_
  rintro l j _ ⟨rfl, hl⟩
  exact ⟨rfl, .inr hl⟩

/-- A method stands from `DEF` to `END`. -/
theorem tracks_method : TracksItem tokens method (Method.Stands tokens) := by
  intro i d
  refine tracks_expect fun hdef => tracks_identifier fun name hname => tracks_expect fun hopen => ?_
  refine tracks_parameters.bind ?_
  rintro parameters j _ ⟨rfl, hparameters⟩
  refine tracks_expect fun hclose => ?_
  -- The parentheses stand even where there are no parameters.
  have henclosed :
      ∃ ps, Enclosed tokens (Parameter.Stands tokens) parameters (i + 2) (j + 1) ps := by
    obtain ⟨rfl, rfl⟩ | ⟨ps, hparameters⟩ := hparameters
    · exact ⟨[], .none hopen hclose⟩
    · exact ⟨ps, .some hopen hparameters hclose⟩
  obtain ⟨ps, henclosed⟩ := henclosed
  refine tracks_annotation.bind ?_
  rintro type k _ ⟨rfl, htype⟩
  refine tracks_expect fun hdo => (tracks_block "END" [] (k + 1) _).bind ?_
  rintro body l _ ⟨rfl, ⟨qs, hbody⟩, _⟩
  refine tracks_expect fun hend => tracks_fresh fun id => ?_
  exact tracks_pure ⟨rfl, _, .intro (m := ⟨id, name, parameters, type, body⟩) hdef hname henclosed
    htype hdo hbody hend⟩

/-- A program stands from the first token to the last. -/
private theorem tracks_source :
    Tracks tokens source 0 d fun s _ _ => ∃ ps, s.Stands tokens ps := by
  refine (tracks_manyAt "LET" tracks_declaration 0 d).bind ?_
  rintro fields j _ ⟨rfl, ps, hfields⟩
  refine (tracks_manyAt "DEF" tracks_method j _).bind ?_
  rintro methods k _ ⟨rfl, qs, hmethods⟩ c hc hd hmax
  refine tracks_peek ?_ c hc hd hmax
  cases hk : tokens[k]? with
  | some t => exact tracks_fail _
  | none =>
    -- No token is left, so the last method ends at the end of the list.
    obtain rfl : k = tokens.length := Nat.le_antisymm hc.le (List.getElem?_eq_none_iff.mp hk)
    exact tracks_pure ⟨_, .intro (s := ⟨fields, methods⟩) hfields hmethods⟩

end Rules

end Parse

/-- A program that is read stands at the tokens from which it is read. -/
theorem Source.stands_of_parse {tokens : List Token} {s : Source} (h : parse tokens = .ok s) :
    ∃ ps, s.Stands tokens ps := by
  unfold parse at h
  cases hrun : Parse.source (Cursor.start tokens) with
  | error e c => rw [hrun] at h; exact nomatch h
  | ok s' c =>
    rw [hrun] at h
    cases h
    obtain ⟨_, _, hstands⟩ :=
      (Parse.tracks_source _ (Cursor.at_start tokens) rfl (Nat.zero_le _)).of_ok hrun
    exact hstands

end LetLang
