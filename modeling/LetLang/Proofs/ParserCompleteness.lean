import LetLang.Proofs.Cursor

/-! # The parser finds every program

A program that is written with some terminals is found in every list of tokens for them, up to
the numbers of its nodes, unless it nests too far.  Whether it does is decided by its cost alone.

`Recovers p d ys fits Q` says what a step of the parser does that starts at nesting `d` before
tokens for the terminals `ys`: if `fits` holds, it succeeds, and `Q` holds of the result, the
nesting at the end and the terminals that are left; otherwise it complains about the nesting and
about nothing else.

* `recovers_chain`, `recovers_links`   the left end of a chain is found first, so the proofs follow
  the chain from there, with what comes after it as a hypothesis
* `parse_of_yields`   what becomes of the terminals of a program -/

namespace LetLang

/-! ## Trees without numbers -/

mutual

/-- The expression with the numbers of its nodes forgotten. -/
def Expr.unnumbered : Expr → Expr
  | .literal _ value => .literal 0 value
  | .group _ inner => .group 0 inner.unnumbered
  | .binary _ operator left right => .binary 0 operator left.unnumbered right.unnumbered
  | .var _ name => .var 0 name
  | .field _ receiver name => .field 0 receiver.unnumbered name
  | .call _ name items => .call 0 name (Expr.listUnnumbered items)
  | .invoke _ receiver name items => .invoke 0 receiver.unnumbered name (Expr.listUnnumbered items)

/-- Expressions with the numbers of their nodes forgotten. -/
def Expr.listUnnumbered : List Expr → List Expr
  | [] => []
  | e :: rest => e.unnumbered :: Expr.listUnnumbered rest

end

private theorem Expr.listUnnumbered_eq_map (items : List Expr) :
    Expr.listUnnumbered items = items.map Expr.unnumbered := by
  induction items with
  | nil => rfl
  | cons e rest ih => rw [Expr.listUnnumbered, ih, List.map_cons]

/-- The declaration with the numbers of its nodes forgotten. -/
def Declaration.unnumbered (d : Declaration) : Declaration :=
  ⟨0, d.name, d.typeName, d.initializer.map Expr.unnumbered⟩

mutual

/-- The statement with the numbers of its nodes forgotten. -/
def Statement.unnumbered : Statement → Statement
  | .expression value => .expression value.unnumbered
  | .declare d => .declare d.unnumbered
  | .assign target value => .assign target.unnumbered value.unnumbered
  | .ifElse condition thenBody elseBody =>
    .ifElse condition.unnumbered (Statement.listUnnumbered thenBody)
      (Statement.listUnnumbered elseBody)
  | .forIn name iterable body =>
    .forIn name iterable.unnumbered (Statement.listUnnumbered body)
  | .whileDo condition body => .whileDo condition.unnumbered (Statement.listUnnumbered body)
  | .returns value => .returns value.unnumbered

/-- Statements with the numbers of their nodes forgotten. -/
def Statement.listUnnumbered : List Statement → List Statement
  | [] => []
  | s :: rest => s.unnumbered :: Statement.listUnnumbered rest

end

private theorem Statement.listUnnumbered_eq_map (body : List Statement) :
    Statement.listUnnumbered body = body.map Statement.unnumbered := by
  induction body with
  | nil => rfl
  | cons s rest ih => rw [Statement.listUnnumbered, ih, List.map_cons]

/-- The method with the numbers of its nodes forgotten. -/
def Method.unnumbered (m : Method) : Method :=
  ⟨0, m.name, m.parameters, m.returnTypeName, Statement.listUnnumbered m.body⟩

/-- The program with the numbers of its nodes forgotten. -/
def Source.unnumbered (s : Source) : Source :=
  ⟨s.fields.map Declaration.unnumbered, s.methods.map Method.unnumbered⟩

/-! ## What comes first -/

/-- The words of the grammar.  Where they are looked for, no name is told from them. -/
def reserved : List String :=
  ["LET", "DEF", "IF", "ELSE", "FOR", "IN", "WHILE", "RETURN", "DO", "END", "AND", "OR", "TRUE",
    "FALSE", "NIL"]

/-- The terminal can be written so that it is not mistaken for another one: a name is an
    identifier and no word of the grammar, and a decimal has a digit behind its point. -/
def Terminal.Writable : Terminal → Prop
  | name n => Token.Kind.identifier.Lexeme n.toList ∧ n ∉ reserved
  | literal (.decimal d) => 1 ≤ d.scale
  | _ => True

/-- A name is no word of the grammar, and no sign either. -/
private theorem Terminal.Writable.name_spells {n w : String} (h : (Terminal.name n).Writable)
    (hw : w ∈ reserved ∨ Terminal.fixed w = .sign w) : (Terminal.name n).spells w = false := by
  obtain ⟨hlexeme, hfree⟩ := h
  simp only [Terminal.spells, beq_eq_false_iff_ne]
  rintro rfl
  obtain hw | hw := hw
  · exact hfree hw
  · -- A sign does not start like an identifier.
    generalize hcs : n.toList = cs at hlexeme
    cases hlexeme with
    | identifier hstart _ => simp [Terminal.fixed, hcs, hstart] at hw

/-- A name is not read as a literal. -/
private theorem Terminal.Writable.ofToken?_name {n : String} {t : Token}
    (h : (Terminal.name n).Writable)
    (ht : (Terminal.name n).Matches t) : Literal.ofToken? t = none := by
  obtain ⟨hkind, rfl⟩ := ht
  have hwords : ∀ w ∈ ["TRUE", "FALSE", "NIL"], t.lexeme ≠ w := by
    rintro w hw rfl
    exact h.2 ((by decide : ∀ w ∈ ["TRUE", "FALSE", "NIL"], w ∈ reserved) _ hw)
  simp only [Literal.ofToken?, hkind, Literal.ofWord?]
  rw [if_neg (hwords _ (by simp)), if_neg (hwords _ (by simp)), if_neg (hwords _ (by simp))]

/-- Whether the first terminal is written like the word or sign. -/
def spellsFirst (ys : List Terminal) (lexeme : String) : Bool := ys.head?.any (·.spells lexeme)

/-- A cursor in front of given terminals sees what they spell. -/
private theorem Cursor.sees_eq {c : Cursor} {ys : List Terminal}
    (h : List.Forall₂ Terminal.Matches ys c.rest) (lexeme : String) :
    c.sees lexeme = spellsFirst ys lexeme := by
  unfold Cursor.sees
  cases hrest : c.rest with
  | nil =>
    rw [hrest] at h
    cases h
    rfl
  | cons t rest =>
    rw [hrest] at h
    cases h with
    | cons hy _ => exact hy.spells_eq lexeme

/-- What an expression may start with. -/
private theorem Expr.terminals_start : (e : Expr) → ∃ y rest, e.terminals = y :: rest ∧
    ((∃ v, y = .literal v) ∨ (∃ n, y = .name n) ∨ y = .sign "(")
  | .literal _ v => ⟨_, _, rfl, .inl ⟨v, rfl⟩⟩
  | .group _ _ => ⟨_, _, rfl, .inr (.inr rfl)⟩
  | .var _ n => ⟨_, _, rfl, .inr (.inl ⟨n, rfl⟩)⟩
  | .call _ n _ => ⟨_, _, rfl, .inr (.inl ⟨n, rfl⟩)⟩
  -- A chain starts where its leftmost operand or receiver does.
  | .binary _ _ left _ => by
    obtain ⟨y, rest, hrest, hy⟩ := left.terminals_start
    exact ⟨y, _, by rw [Expr.terminals, hrest, List.cons_append], hy⟩
  | .field _ receiver _ => by
    obtain ⟨y, rest, hrest, hy⟩ := receiver.terminals_start
    exact ⟨y, _, by rw [Expr.terminals, hrest, List.cons_append], hy⟩
  | .invoke _ receiver _ _ => by
    obtain ⟨y, rest, hrest, hy⟩ := receiver.terminals_start
    exact ⟨y, _, by rw [Expr.terminals, hrest, List.cons_append], hy⟩

/-- What no expression starts with. -/
def notFirst : List String := ["LET", "IF", "FOR", "WHILE", "RETURN", "END", "ELSE", ")"]

/-- No expression starts with one of the words that end it. -/
private theorem Expr.spellsFirst_terminals {e : Expr} (h : ∀ y ∈ e.terminals, y.Writable)
    {w : String}
    (hw : w ∈ notFirst) (zs : List Terminal) : spellsFirst (e.terminals ++ zs) w = false := by
  obtain ⟨y, rest, hrest, hy⟩ := e.terminals_start
  have hwritable : y.Writable := h y (by rw [hrest]; exact List.mem_cons_self)
  rw [hrest]
  show y.spells w = false
  have hcases : ∀ w ∈ notFirst, w ∈ reserved ∨ Terminal.fixed w = .sign w := by decide
  obtain ⟨v, rfl⟩ | ⟨n, rfl⟩ | rfl := hy
  · -- The literals that are words are other words.
    have hother : ∀ w ∈ notFirst, w ≠ "NIL" ∧ w ≠ "TRUE" ∧ w ≠ "FALSE" := by decide
    obtain ⟨hnil, htrue, hfalse⟩ := hother w hw
    cases v with
    | nil => simpa [Terminal.spells] using hnil.symm
    | boolean b => cases b <;> simp [Terminal.spells, htrue.symm, hfalse.symm]
    | _ => rfl
  -- Names that can be written are neither reserved words nor signs.
  · exact hwritable.name_spells (hcases w hw)
  · have hother : ∀ w ∈ notFirst, (Terminal.sign "(").spells w = false := by decide
    exact hother w hw

/-- An expression that is bound at least as tightly as `r` does not go on with these terminals. -/
structure Ended (r : Nat) (zs : List Terminal) : Prop where
  dot : spellsFirst zs "." = false
  call : spellsFirst zs "(" = false
  operator : ∀ o : Operator, r ≤ o.level.rank → spellsFirst zs o.symbol = false

/-- What ends a loose level ends a tighter one. -/
theorem Ended.mono {r r' : Nat} {zs : List Terminal} (h : Ended r zs) (hr : r ≤ r') :
    Ended r' zs where
  dot := h.dot
  call := h.call
  operator := fun o ho => h.operator o (Nat.le_trans hr ho)

/-- No operator of the level follows. -/
private theorem Ended.find?_level {level : Level} {zs : List Terminal} (h : Ended level.rank zs) :
    level.operators.find? (fun o => spellsFirst zs o.symbol) = none := by
  rw [List.find?_eq_none]
  intro o ho
  have hlevel := (Level.mem_operators level o).mp ho
  simp [h.operator o (by simp [hlevel])]

/-- What an expression may be followed by. -/
def closers : List Terminal := [.sign ")", .sign ",", .sign ";", .sign "=", .keyword "DO"]

/-- A closing word ends an expression. -/
private theorem ended_closer {y : Terminal} (hy : y ∈ closers) (zs : List Terminal) :
    Ended 0 (y :: zs) := by
  have hother : ∀ y ∈ closers, y.spells "." = false ∧ y.spells "(" = false ∧
      ∀ o ∈ Operator.all, y.spells o.symbol = false := by decide
  obtain ⟨hdot, hcall, hoperator⟩ := hother y hy
  exact ⟨hdot, hcall, fun o _ => hoperator o (by cases o <;> decide)⟩

/-- An operator ends what is bound more tightly. -/
private theorem ended_operator (o : Operator) (zs : List Terminal) :
    Ended (o.level.rank + 1) (o.terminal :: zs) where
  dot := by cases o <;> rfl
  call := by cases o <;> rfl
  operator := by
    intro o' h
    have hne : o ≠ o' := by rintro rfl; omega
    show o.terminal.spells o'.symbol = false
    cases o <;> cases o' <;> first | rfl | exact absurd rfl hne

/-- An operator is told from the other ones of its level. -/
private theorem Operator.find?_level (o : Operator) (zs : List Terminal) :
    o.level.operators.find? (fun o' => spellsFirst (o.terminal :: zs) o'.symbol) = some o := by
  cases o <;> rfl

namespace Parse

variable {α β γ : Type}

/-! ## Steps -/

/-- Started at nesting `d` before tokens for `ys`, the step succeeds if `fits`, and then `Q` holds
    of its result, the nesting at its end and the terminals that are left; else the step complains
    about the nesting. -/
def Recovers (p : Parse α) (d : Nat) (ys : List Terminal) (fits : Prop)
    (Q : α → Nat → List Terminal → Prop) : Prop :=
  ∀ c : Cursor, c.depth = d → List.Forall₂ Terminal.Matches ys c.rest →
    Ends p c
      (fun a c' => fits ∧ ∃ zs, List.Forall₂ Terminal.Matches zs c'.rest ∧ Q a c'.depth zs)
      (fun e _ => ¬fits ∧ e.fault = .tooDeep)

section Rules

variable {d : Nat} {ys zs : List Terminal} {fits fits' : Prop}

/-- What is recovered may be described more loosely. -/
theorem Recovers.imp {p : Parse α} {Q R : α → Nat → List Terminal → Prop}
    (h : Recovers p d ys fits Q) (hfits : fits ↔ fits')
    (hR : ∀ a d' zs, fits → Q a d' zs → R a d' zs) : Recovers p d ys fits' R := by
  intro c hd hys
  refine (h c hd hys).imp ?_ ?_
  · rintro a c' - ⟨hf, zs, hzs, hQ⟩
    exact ⟨hfits.mp hf, zs, hzs, hR _ _ _ hf hQ⟩
  · rintro e c' - ⟨hf, he⟩
    exact ⟨fun h => hf (hfits.mpr h), he⟩

/-- If the whole fits then so does its first step, and the first step fits if it succeeds. -/
theorem Recovers.bind {p : Parse α} {f : α → Parse β} {Q : α → Nat → List Terminal → Prop}
    {R : β → Nat → List Terminal → Prop} (hp : Recovers p d ys fits Q) (hfits : fits' → fits)
    (hf : ∀ a d' zs, fits → Q a d' zs → Recovers (f a) d' zs fits' R) :
    Recovers (p >>= f) d ys fits' R := by
  intro c hd hys
  rw [ends_bind]
  refine (hp c hd hys).imp ?_ ?_
  · rintro a c' - ⟨hfit, zs, hzs, hQ⟩
    exact hf a c'.depth zs hfit hQ c' rfl hzs
  · rintro e c' - ⟨hfit, he⟩
    exact ⟨fun h => hfit (hfits h), he⟩

/-- A function of the value reads no further. -/
theorem Recovers.map {p : Parse α} {f : α → β} {Q : β → Nat → List Terminal → Prop}
    (h : Recovers p d ys fits fun a d' zs => Q (f a) d' zs) : Recovers (f <$> p) d ys fits Q := by
  intro c hd hys
  rw [ends_map]
  exact h c hd hys

private theorem recovers_pure {a : α} {Q : α → Nat → List Terminal → Prop} (hfits : fits)
    (h : Q a d ys) :
    Recovers (pure a) d ys fits Q := by
  rintro c rfl hys
  exact ⟨hfits, ys, hys, h⟩

/-- A step that only looks. -/
private theorem recovers_look {p : Parse α} {f : α → Parse β} {Q : β → Nat → List Terminal → Prop}
    {a : α} (hp : ∀ c : Cursor, List.Forall₂ Terminal.Matches ys c.rest → p c = .ok a c)
    (h : Recovers (f a) d ys fits Q) : Recovers (p >>= f) d ys fits Q := by
  intro c hd hys
  rw [ends_bind]
  unfold Ends
  rw [hp c hys]
  exact h c hd hys

section Steps

variable {Q : α → Nat → List Terminal → Prop} {lexeme : String} {y : Terminal}

/-- What is seen is the spelling of the first terminal. -/
private theorem recovers_sees {f : Bool → Parse α}
    (h : Recovers (f (spellsFirst ys lexeme)) d ys fits Q) :
    Recovers (sees lexeme >>= f) d ys fits Q := by
  refine recovers_look (fun c hys => ?_) h
  rw [← Cursor.sees_eq hys]
  rfl

private theorem recovers_seesAny {words : List String} {f : Bool → Parse α}
    (h : Recovers (f (words.any (spellsFirst ys))) d ys fits Q) :
    Recovers (seesAny words >>= f) d ys fits Q := by
  refine recovers_look (fun c hys => ?_) h
  rw [← show c.sees = spellsFirst ys from funext (Cursor.sees_eq hys)]
  rfl

/-- The operator that is seen is the first of its level. -/
private theorem recovers_operatorAt {level : Level} {f : Option Operator → Parse α}
    (h : Recovers (f (level.operators.find? fun o => spellsFirst ys o.symbol)) d ys fits Q) :
    Recovers (operatorAt level >>= f) d ys fits Q := by
  refine recovers_look (fun c hys => ?_) h
  rw [← show c.sees = spellsFirst ys from funext (Cursor.sees_eq hys)]
  rfl

/-- There is a round for every token that is left. -/
private theorem recovers_remaining {f : Nat → Parse α} (h : Recovers (f ys.length) d ys fits Q) :
    Recovers (remaining >>= f) d ys fits Q := by
  refine recovers_look (fun c hys => ?_) h
  rw [hys.length_eq, ← c.count_eq]
  rfl

/-- Nothing is left. -/
private theorem recovers_end {f : Option Token → Parse α} (h : Recovers (f none) d [] fits Q) :
    Recovers (peek >>= f) d [] fits Q := by
  refine recovers_look (fun c hys => ?_) h
  rw [peek, show c.rest = [] from List.forall₂_nil_left_iff.mp hys]
  rfl

/-- The next token is one for the next terminal. -/
private theorem recovers_next {f : Option Token → Parse α}
    (h : ∀ t, y.Matches t → Recovers (f (some t)) d (y :: zs) fits Q) :
    Recovers (peek >>= f) d (y :: zs) fits Q := by
  intro c hd hys
  obtain ⟨t, rest, ht, -, hrest⟩ := List.forall₂_cons_left_iff.mp hys
  rw [ends_bind, ends_peek, hrest]
  exact h t ht c hd hys

private theorem recovers_fresh {f : NodeId → Parse α} (h : ∀ id, Recovers (f id) d ys fits Q) :
    Recovers (fresh >>= f) d ys fits Q := by
  intro c hd hys
  rw [ends_bind, ends_fresh]
  exact h _ _ hd hys

/-- Going deeper is where the text may not fit. -/
private theorem recovers_enter {f : Unit → Parse α} (hfits : fits → d + 1 ≤ maxNesting)
    (h : d + 1 ≤ maxNesting → Recovers (f ()) (d + 1) ys fits Q) :
    Recovers (enter >>= f) d ys fits Q := by
  rintro c rfl hys
  rw [ends_bind, ends_enter]
  split
  · rename_i hdeep
    exact ⟨fun hfit => by have := hfits hfit; omega, rfl⟩
  · rename_i hroom
    exact h (by omega) { c with depth := c.depth + 1 } rfl hys

/-- One terminal is taken. -/
private theorem recovers_advance {f : Unit → Parse α} (h : Recovers (f ()) d zs fits Q) :
    Recovers (advance >>= f) d (y :: zs) fits Q := by
  intro c hd hys
  obtain ⟨t, rest, -, hzs, hrest⟩ := List.forall₂_cons_left_iff.mp hys
  rw [ends_bind, ends_advance]
  exact h c.advance (by rw [Cursor.advance_depth, hd]) (by rwa [Cursor.advance_rest hrest])

/-- The word or sign comes next. -/
private theorem recovers_choice {p q : Parse α} (hy : y.spells lexeme = true)
    (hp : Recovers p d zs fits Q) :
    Recovers (do if ← accept lexeme then p else q) d (y :: zs) fits Q := by
  intro c hd hys
  have hsees : c.sees lexeme = true := by rw [Cursor.sees_eq hys, ← hy]; rfl
  rw [ends_bind, ends_accept, if_pos hsees]
  exact recovers_advance (f := fun _ => p) hp c hd hys

/-- The word or sign does not come next. -/
private theorem recovers_otherwise {p q : Parse α} (h : spellsFirst ys lexeme = false)
    (hq : Recovers q d ys fits Q) : Recovers (do if ← accept lexeme then p else q) d ys fits Q := by
  intro c hd hys
  have hsees : ¬c.sees lexeme = true := by rw [Cursor.sees_eq hys, h]; exact Bool.false_ne_true
  rw [ends_bind, ends_accept, if_neg hsees]
  exact hq c hd hys

/-- A terminal is taken that spells what is expected. -/
private theorem recovers_expect {f : Unit → Parse α} (hy : y.spells lexeme = true)
    (h : Recovers (f ()) d zs fits Q) : Recovers (expect lexeme >>= f) d (y :: zs) fits Q := by
  have hexpect : Recovers (expect lexeme) d (y :: zs) True fun _ d' zs' => d' = d ∧ zs' = zs :=
    recovers_choice hy (recovers_pure trivial ⟨rfl, rfl⟩)
  refine hexpect.bind (fun _ => trivial) ?_
  rintro _ _ _ - ⟨rfl, rfl⟩
  exact h

/-- A name is taken. -/
private theorem recovers_identifier {n : String} {f : String → Parse α}
    (h : Recovers (f n) d zs fits Q) :
    Recovers (identifier >>= f) d (.name n :: zs) fits Q := by
  have hname : Recovers identifier d (.name n :: zs) True fun a d' zs' =>
      d' = d ∧ zs' = zs ∧ a = n := by
    refine recovers_next fun t ht => ?_
    obtain ⟨hkind, rfl⟩ := ht
    simp only [hkind, if_true]
    exact recovers_advance (recovers_pure trivial ⟨rfl, rfl, rfl⟩)
  refine hname.bind (fun _ => trivial) ?_
  rintro _ _ _ - ⟨rfl, rfl, rfl⟩
  exact h

end Steps

/-- The depth is put back. -/
theorem Recovers.restoringDepth {p : Parse α} {Q : α → List Terminal → Prop}
    (h : Recovers p d ys fits fun a _ zs => Q a zs) :
    Recovers (restoringDepth p) d ys fits fun a d' zs => d' = d ∧ Q a zs := by
  rintro c rfl hys
  rw [ends_restoringDepth]
  refine (h c rfl hys).mono ?_
  rintro a c' - ⟨hf, zs, hzs, hQ⟩
  exact ⟨hf, zs, hzs, rfl, hQ⟩

/-! ### Repetition -/

section Repetition

variable {item : Parse α} {terminals : α → List Terminal} {fitting : α → Prop} {key : α → γ}
  {Follow : List Terminal → Prop}

/-- The item is found, up to its key, before everything that may follow it. -/
def RecoversItem (item : Parse α) (terminals : α → List Terminal) (fitting : α → Prop)
    (key : α → γ) (Follow : List Terminal → Prop) (d : Nat) (a : α) : Prop :=
  ∀ zs, Follow zs → Recovers item d (terminals a ++ zs) (fitting a) fun b d' zs' =>
    d' = d ∧ zs' = zs ∧ key b = key a

/-- Lists are recovered item by item, by induction on the items. -/
private theorem recovers_commaRounds (n : Nat) (done more : List α)
    (h : ∀ a ∈ more, RecoversItem item terminals fitting key Follow d a)
    (hcomma : ∀ zs, Follow (.sign "," :: zs)) (hend : Follow zs)
    (hzs : spellsFirst zs "," = false)
    (hn : (more.flatMap fun a => .sign "," :: terminals a).length ≤ n) :
    Recovers (commaRounds item n done) d
      ((more.flatMap fun a => .sign "," :: terminals a) ++ zs) (∀ a ∈ more, fitting a)
      fun l d' zs' => d' = d ∧ zs' = zs ∧ l.map key = done.reverse.map key ++ more.map key := by
  -- The rounds suffice because every further item takes at least its comma.
  induction more generalizing n done with
  | nil =>
    have hstop : Recovers (pure done.reverse) d zs (∀ a ∈ ([] : List α), fitting a)
        fun l d' zs' => d' = d ∧ zs' = zs ∧ l.map key = done.reverse.map key ++ [].map key :=
      recovers_pure (by simp) ⟨rfl, rfl, by simp⟩
    cases n with
    | zero => exact hstop
    | succ n => exact recovers_otherwise hzs hstop
  | cons a more ih =>
    obtain ⟨n, rfl⟩ : ∃ k, n = k + 1 := ⟨n - 1, by simp at hn; omega⟩
    have hfollow : Follow ((more.flatMap fun a => .sign "," :: terminals a) ++ zs) := by
      -- Behind an item stands the next comma, or what follows the whole list.
      cases more with
      | nil => exact hend
      | cons b more => exact hcomma _
    simp only [List.flatMap_cons, List.cons_append, List.append_assoc]
    refine recovers_choice rfl ((h a List.mem_cons_self _ hfollow).bind
      (fun hall => hall a List.mem_cons_self) ?_)
    rintro b _ _ hfit ⟨rfl, rfl, hb⟩
    refine (ih n (b :: done) (fun x hx => h x (List.mem_cons_of_mem a hx)) ?_).imp ?_ ?_
    · simp at hn ⊢
      omega
    · simp [hfit]
    · rintro l _ _ - ⟨rfl, rfl, hl⟩
      exact ⟨rfl, rfl, by simp [hl, hb]⟩

/-- A list that is not empty. -/
private theorem recovers_commaList {first : α} {more : List α}
    (h : ∀ a ∈ first :: more, RecoversItem item terminals fitting key Follow d a)
    (hcomma : ∀ zs, Follow (.sign "," :: zs)) (hend : Follow zs)
    (hzs : spellsFirst zs "," = false) :
    Recovers (commaList item) d (separated terminals (first :: more) ++ zs)
      (∀ a ∈ first :: more, fitting a)
      fun l d' zs' => d' = d ∧ zs' = zs ∧ l.map key = (first :: more).map key := by
  have hfollow : Follow ((more.flatMap fun a => .sign "," :: terminals a) ++ zs) := by
    -- What follows the first item is the next comma or the end of the list.
    cases more with
    | nil => exact hend
    | cons b more => exact hcomma _
  rw [separated, List.append_assoc]
  refine (h first List.mem_cons_self _ hfollow).bind (fun hall => hall first List.mem_cons_self) ?_
  rintro a _ _ hfit ⟨rfl, rfl, ha⟩
  refine recovers_remaining ?_
  refine (recovers_commaRounds _ [a] more (fun x hx => h x (List.mem_cons_of_mem first hx)) hcomma
    hend hzs ?_).imp ?_ ?_
  · simp
  · simp [hfit]
  · rintro l _ _ - ⟨rfl, rfl, hl⟩
    exact ⟨rfl, rfl, by simpa [ha] using hl⟩

end Repetition

/-! ## Expressions -/

/-- The step finds every expression that is bound at least as tightly as `r`.  It has `n` turns
    left, which is enough. -/
def RecoversOperand (n r : Nat) (p : Parse Expr) : Prop :=
  ∀ (e : Expr) (d : Nat) (zs : List Terminal), e.isNormal = true → (∀ y ∈ e.terminals, y.Writable) →
    r ≤ e.rank → Ended r zs → maxNesting < n + d → d ≤ maxNesting →
    Recovers p d (e.terminals ++ zs) (d + e.cost ≤ maxNesting) fun a d' zs' =>
      d' = d ∧ zs' = zs ∧ a.unnumbered = e.unnumbered

/-- The step finds every expression, each of which is a level of its own. -/
def RecoversExpression (n : Nat) (p : Parse Expr) : Prop :=
  ∀ (e : Expr) (d : Nat) (zs : List Terminal), e.isNormal = true → (∀ y ∈ e.terminals, y.Writable) →
    Ended 0 zs → maxNesting < n + d →
    Recovers p d (e.terminals ++ zs) (d + (1 + e.cost) ≤ maxNesting) fun a d' zs' =>
      d' = d ∧ zs' = zs ∧ a.unnumbered = e.unnumbered

section Expressions

variable {n : Nat} {expression : Parse Expr}

/-- Arguments are recovered up to the closing parenthesis. -/
private theorem recovers_arguments (h : RecoversExpression n expression) {items : List Expr}
    (hnormal : Expr.listNormal items = true) (hw : ∀ y ∈ Expr.listTerminals items, y.Writable)
    (hn : maxNesting < n + d) (hd : d ≤ maxNesting) :
    Recovers (arguments expression) d (Expr.listTerminals items ++ .sign ")" :: zs)
      (d + Expr.listCost items ≤ maxNesting) fun l d' zs' =>
        d' = d ∧ zs' = zs ∧ Expr.listUnnumbered l = Expr.listUnnumbered items := by
  cases items with
  | nil =>
    have hcost : d + Expr.listCost [] ≤ maxNesting := by simpa [Expr.listCost] using hd
    exact recovers_choice rfl (recovers_pure hcost ⟨rfl, rfl, rfl⟩)
  | cons first more =>
    rw [Expr.listNormal_iff] at hnormal
    have hitem : ∀ e ∈ first :: more, ∀ y ∈ e.terminals,
        y ∈ Expr.listTerminals (first :: more) := by
      rw [Expr.listTerminals_eq]
      simp only [separated, List.mem_append, List.mem_flatMap, List.mem_cons]
      rintro e (rfl | he) y hy
      · exact .inl hy
      · exact .inr ⟨e, he, .inr hy⟩
    -- An argument does not start like the parenthesis that ends an empty list.
    have hfirst : spellsFirst (Expr.listTerminals (first :: more) ++ .sign ")" :: zs) ")"
        = false := by
      rw [Expr.listTerminals, List.append_assoc]
      exact Expr.spellsFirst_terminals (fun y hy => hw y (hitem first List.mem_cons_self y hy))
        (by simp [notFirst]) _
    refine recovers_otherwise hfirst ?_
    -- The list fits if each of its items does, which is what the items ask for one by one.
    have hlist : d + Expr.listCost (first :: more) ≤ maxNesting ↔
        ∀ e ∈ first :: more, d + (1 + e.cost) ≤ maxNesting := by
      have := Expr.listCost_le_iff (first :: more) (maxNesting - d)
      rw [show d + Expr.listCost (first :: more) ≤ maxNesting ↔
        Expr.listCost (first :: more) ≤ maxNesting - d by omega, this]
      refine forall₂_congr fun e _ => ?_
      omega
    rw [Expr.listTerminals_eq]
    have hitems : ∀ e ∈ first :: more, RecoversItem expression Expr.terminals
        (fun e => d + (1 + e.cost) ≤ maxNesting) Expr.unnumbered (Ended 0) d e :=
      fun e he zs hzs => h e d zs (hnormal e he) (fun y hy => hw y (hitem e he y hy)) hzs hn
    refine (recovers_commaList hitems (ended_closer (by simp [closers]))
      (ended_closer (by simp [closers]) zs) rfl).bind hlist.mp ?_
    rintro l _ _ hfit ⟨rfl, rfl, hl⟩
    refine recovers_expect rfl ?_
    exact recovers_pure (hlist.mpr hfit) ⟨rfl, rfl, by rw [Expr.listUnnumbered_eq_map, hl,
      Expr.listUnnumbered_eq_map]⟩

/-- A node that is complete. -/
private theorem recovers_node {make : NodeId → Expr} {Q : Expr → Nat → List Terminal → Prop}
    (hfits : fits)
    (h : ∀ id, Q (make id) d ys) : Recovers (do return make (← fresh)) d ys fits Q := by
  refine recovers_fresh fun id => ?_
  exact recovers_pure hfits (h id)

/-- A primary expression is recovered by its first terminal. -/
private theorem recovers_primary (h : RecoversExpression n expression) {e : Expr}
    (hnormal : e.isNormal = true) (hw : ∀ y ∈ e.terminals, y.Writable) (hrank : 4 ≤ e.rank)
    (hdots : e.dots = 0) (hzs : spellsFirst zs "(" = false) (hn : maxNesting < n + d)
    (hd : d ≤ maxNesting) :
    Recovers (primary expression) d (e.terminals ++ zs) (d + e.cost ≤ maxNesting) fun a d' zs' =>
      d' = d ∧ zs' = zs ∧ a.unnumbered = e.unnumbered := by
  cases e with
  -- What has a dot or an operator at its end is no primary.
  | field id receiver name => exact nomatch hdots
  | invoke id receiver name items => exact nomatch hdots
  | binary id o left right =>
    have := o.level.rank_lt
    simp only [Expr.rank] at hrank
    omega
  | literal id v =>
    refine recovers_next fun t ht => ?_
    -- A literal is known by its first token, which is also its last.
    simp only [Literal.Spelled.ofToken?_eq ht]
    refine recovers_advance ?_
    exact recovers_node hd fun _ => ⟨rfl, rfl, rfl⟩
  | var id name =>
    refine recovers_next fun t ht => ?_
    have hnone := (hw _ List.mem_cons_self).ofToken?_name ht
    obtain ⟨hkind, rfl⟩ := ht
    simp only [hnone, hkind]
    refine recovers_advance ?_
    -- A name is a variable if no parenthesis follows.
    exact recovers_otherwise hzs (recovers_node hd fun _ => ⟨rfl, rfl, rfl⟩)
  | call id name items =>
    simp only [Expr.terminals, List.cons_append, List.append_assoc, List.nil_append]
    refine recovers_next fun t ht => ?_
    have hnone := (hw _ List.mem_cons_self).ofToken?_name ht
    obtain ⟨hkind, rfl⟩ := ht
    simp only [hnone, hkind]
    refine recovers_advance ?_
    refine recovers_choice rfl ((recovers_arguments h hnormal ?_ hn hd).bind (fun hfit => hfit) ?_)
    · intro y hy
      exact hw y (by simp [Expr.terminals, hy])
    · rintro l d _ hcost ⟨rfl, rfl, hl⟩
      exact recovers_node hcost fun _ => ⟨rfl, rfl, by simp [Expr.unnumbered, hl]⟩
  | group id inner =>
    simp only [Expr.terminals, List.cons_append, List.append_assoc, List.nil_append]
    refine recovers_next fun t ht => ?_
    obtain ⟨hkind, hlexeme⟩ := ht
    have hnone : Literal.ofToken? t = none := by simp only [Literal.ofToken?, hkind]
    simp only [hnone, hkind, hlexeme, if_true]
    refine recovers_advance ?_
    -- The closing parenthesis ends the expression inside whatever follows it.
    have hended : Ended 0 (.sign ")" :: zs) := ended_closer (by simp [closers]) zs
    refine (h inner d _ hnormal ?_ hended hn).bind (fun hfit => hfit) ?_
    · intro y hy
      exact hw y (by simp [Expr.terminals, hy])
    · rintro a d _ hcost ⟨rfl, rfl, ha⟩
      refine recovers_choice rfl (recovers_node hcost fun _ => ⟨rfl, rfl, ?_⟩)
      simp [Expr.unnumbered, ha]

/-- A chain of dots is found from its left end on, so its last link goes on with what `hlast` says
    about the links that come after it. -/
theorem recovers_links (h : RecoversExpression n expression) {e : Expr}
    (hnormal : e.isNormal = true) (hw : ∀ y ∈ e.terminals, y.Writable) (hrank : 4 ≤ e.rank)
    (hzs : spellsFirst zs "(" = false) (hn : maxNesting < n + d) (hd : d ≤ maxNesting)
    {Q : Expr → Nat → List Terminal → Prop} (hfits : fits → d + e.cost ≤ maxNesting)
    (hlast : ∀ a k, a.unnumbered = e.unnumbered → zs.length ≤ k → d + e.cost ≤ maxNesting →
      Recovers (links expression k a) (d + e.dots) zs fits Q) :
    Recovers (primary expression >>= fun first => remaining >>= fun k => links expression k first) d
      (e.terminals ++ zs) fits Q := by
  -- The induction is on the dots that are left.  The receiver has one less, and what comes after
  -- it is the dot at hand together with `zs`.
  induction hdots : e.dots generalizing e zs with
  | zero =>
    refine (recovers_primary h hnormal hw hrank hdots hzs hn hd).bind hfits ?_
    rintro a d _ hcost ⟨rfl, rfl, ha⟩
    refine recovers_remaining ?_
    simpa [hdots] using hlast a _ ha (Nat.le_refl _) hcost
  | succ dots ih =>
    cases e with
    | field id receiver name =>
      simp only [Expr.isNormal, Bool.and_eq_true, Bool.not_eq_true',
        Expr.isBinary_eq_false_iff] at hnormal
      simp only [Expr.dots, Nat.add_right_cancel_iff] at hdots
      simp only [Expr.cost, Expr.dots] at hfits hlast
      simp only [Expr.terminals, List.append_assoc, List.cons_append, List.nil_append]
      refine ih hnormal.2 (fun y hy => hw y (by simp [Expr.terminals, hy])) hnormal.1 rfl
        (fun hfit => by have := hfits hfit; omega) (fun a k ha hk hcost => ?_) hdots
      -- Behind the receiver there are the dot and the name.
      obtain ⟨k, rfl⟩ : ∃ j, k = j + 1 := ⟨k - 1, by simp at hk; omega⟩
      refine recovers_choice rfl
        (recovers_enter (fun hfit => by have := hfits hfit; omega) fun hroom => ?_)
      refine recovers_identifier ?_
      refine recovers_otherwise hzs (recovers_fresh fun id' => ?_)
      have := hlast (.field id' a name) k (by simp [Expr.unnumbered, ha]) (by simp at hk; omega)
        (by omega)
      rwa [← Nat.add_assoc] at this
    | invoke id receiver name items =>
      simp only [Expr.isNormal, Bool.and_eq_true, Bool.not_eq_true',
        Expr.isBinary_eq_false_iff] at hnormal
      simp only [Expr.dots, Nat.add_right_cancel_iff] at hdots
      simp only [Expr.cost, Expr.dots] at hfits hlast
      simp only [Expr.terminals, List.append_assoc, List.cons_append, List.nil_append]
      refine ih hnormal.1.2 (fun y hy => hw y (by simp [Expr.terminals, hy])) hnormal.1.1 rfl
        (fun hfit => by have := hfits hfit; omega) (fun a k ha hk hcost => ?_) hdots
      obtain ⟨k, rfl⟩ : ∃ j, k = j + 1 := ⟨k - 1, by simp at hk; omega⟩
      refine recovers_choice rfl
        (recovers_enter (fun hfit => by have := hfits hfit; omega) fun hroom => ?_)
      refine recovers_identifier ?_
      refine recovers_choice rfl ((recovers_arguments h hnormal.2
        (fun y hy => hw y (by simp [Expr.terminals, hy])) (by omega) hroom).bind
        (fun hfit => by have := hfits hfit; omega) ?_)
      rintro l _ zs hlist ⟨rfl, rfl, hl⟩
      refine recovers_fresh fun id' => ?_
      have := hlast (.invoke id' a name l) k (by simp [Expr.unnumbered, ha, hl])
        (by simp at hk; omega) (by omega)
      rwa [← Nat.add_assoc] at this
    | _ => exact nomatch hdots

/-- Links are recovered from the left. -/
private theorem recovers_secondary (h : RecoversExpression n expression) :
    RecoversOperand n 4 (secondary expression) := by
  intro e d zs hnormal hw hrank hended hn hd
  refine Recovers.restoringDepth ?_
  refine recovers_links h hnormal hw hrank hended.call hn hd (fun hfit => hfit) ?_
  -- No dot follows, so that was the last link.
  intro a k ha _ hcost
  cases k with
  | zero => exact recovers_pure hcost ⟨rfl, ha⟩
  | succ k => exact recovers_otherwise hended.dot (recovers_pure hcost ⟨rfl, ha⟩)

end Expressions

/-- A chain of operators is found from its left end on, so its last operand goes on with what
    `hlast` says about the operators that come after it. -/
theorem recovers_chain {n : Nat} {level : Level} {operand : Parse Expr}
    (h : RecoversOperand n (level.rank + 1) operand) {e : Expr} (hnormal : e.isNormal = true)
    (hw : ∀ y ∈ e.terminals, y.Writable) (hrank : level.rank ≤ e.rank)
    (hended : Ended (level.rank + 1) zs) (hn : maxNesting < n + d) (hd : d ≤ maxNesting)
    {Q : Expr → Nat → List Terminal → Prop} (hfits : fits → d + e.cost ≤ maxNesting)
    (hlast : ∀ a k, a.unnumbered = e.unnumbered → zs.length ≤ k → d + e.cost ≤ maxNesting →
      Recovers (chain level operand k a) (d + e.links level) zs fits Q) :
    Recovers (operand >>= fun left => remaining >>= fun k => chain level operand k left) d
      (e.terminals ++ zs) fits Q := by
  -- As for dots: the left operand is the shorter chain, and the operator at hand comes after it.
  induction hlinks : e.links level generalizing e zs with
  | zero =>
    refine (h e d zs hnormal hw (Expr.rank_lt_of_links hlinks hrank) hended hn hd).bind hfits ?_
    rintro a d _ hcost ⟨rfl, rfl, ha⟩
    refine recovers_remaining ?_
    simpa [hlinks] using hlast a _ ha (Nat.le_refl _) hcost
  | succ links ih =>
    cases e with
    | binary id o left right =>
      simp only [Expr.links] at hlinks
      split at hlinks
      · rename_i hlevel
        subst hlevel
        simp only [Expr.isNormal, Bool.and_eq_true, decide_eq_true_eq] at hnormal
        obtain ⟨⟨⟨hleftRank, hrightRank⟩, hleft⟩, hright⟩ := hnormal
        simp only [Nat.add_right_cancel_iff] at hlinks
        simp only [Expr.cost, Expr.links, if_true] at hfits hlast
        rw [Expr.terminals, List.append_assoc]
        refine ih hleft (fun y hy => hw y (by simp [Expr.terminals, hy])) hleftRank
          (ended_operator o _) (fun hfit => by have := hfits hfit; omega)
          (fun a k ha hk hcost => ?_) hlinks
        -- Behind the left operand there are the operator and the right operand.
        obtain ⟨k, rfl⟩ : ∃ j, k = j + 1 := ⟨k - 1, by simp at hk; omega⟩
        refine recovers_operatorAt ?_
        rw [List.cons_append, Operator.find?_level]
        refine recovers_enter (fun hfit => by have := hfits hfit; omega) fun hroom => ?_
        refine recovers_advance ?_
        refine (h right _ zs hright (fun y hy => hw y (by simp [Expr.terminals, hy])) hrightRank
          hended (by omega) hroom).bind (fun hfit => by have := hfits hfit; omega) ?_
        rintro b _ _ hcost' ⟨rfl, rfl, hb⟩
        refine recovers_fresh fun id' => ?_
        have := hlast (.binary id' o a b) k (by simp [Expr.unnumbered, ha, hb])
          (by simp at hk; omega) (by omega)
        rwa [← Nat.add_assoc] at this
      · cases hlinks
    | _ => cases hlinks

/-- A level is recovered from its operands, chained from the left. -/
private theorem recovers_binaryLevel {n : Nat} (level : Level) {operand : Parse Expr}
    (h : RecoversOperand n (level.rank + 1) operand) :
    RecoversOperand n level.rank (binaryLevel level operand) := by
  intro e d zs hnormal hw hrank hended hn hd
  refine Recovers.restoringDepth ?_
  refine recovers_chain h hnormal hw hrank (hended.mono (Nat.le_succ _)) hn hd (fun hfit => hfit) ?_
  -- No operator of the level follows, so that was the last operand.
  intro a k ha _ hcost
  cases k with
  | zero => exact recovers_pure hcost ⟨rfl, ha⟩
  | succ k =>
    refine recovers_operatorAt ?_
    rw [hended.find?_level]
    exact recovers_pure hcost ⟨rfl, ha⟩

/-- Expressions within any depth, by induction on the depth that is left. -/
private theorem recovers_expressionWithin (n : Nat) :
    RecoversExpression n (expressionWithin n) := by
  induction n with
  | zero =>
    -- Without a turn left the nesting is already exceeded, so the complaint is the right answer.
    rintro e d zs - - - hn c - -
    exact ⟨by omega, rfl⟩
  | succ n ih =>
    intro e d zs hnormal hw hended hn
    refine Recovers.restoringDepth (recovers_enter (fun hfit => by omega) fun hroom => ?_)
    have tight := recovers_binaryLevel .multiplicative (recovers_secondary ih)
    have additive := recovers_binaryLevel .additive tight
    have comparison := recovers_binaryLevel .comparison additive
    have logical := recovers_binaryLevel .logical comparison
    refine (logical e (d + 1) zs hnormal hw (Nat.zero_le _) hended (by omega) hroom).imp
      (by omega) ?_
    rintro a _ _ - ⟨-, rfl, ha⟩
    exact ⟨rfl, ha⟩

/-- An expression in front of a closing word is recovered as a whole. -/
private theorem recovers_expression {e : Expr} (hnormal : e.isNormal = true)
    (hw : ∀ y ∈ e.terminals, y.Writable) {y : Terminal} (hy : y ∈ closers) :
    Recovers expression d (e.terminals ++ y :: zs) (d + (1 + e.cost) ≤ maxNesting) fun a d' zs' =>
      d' = d ∧ zs' = y :: zs ∧ a.unnumbered = e.unnumbered :=
  recovers_expressionWithin (maxNesting + 1) e d _ hnormal hw (ended_closer hy zs) (by omega)

/-! ## Statements -/

/-- An annotation, or none, is recovered if no colon follows. -/
private theorem recovers_annotated {type : Option String} (hzs : spellsFirst zs ":" = false) :
    Recovers annotation d (annotationTerminals type ++ zs) True fun a d' zs' =>
      d' = d ∧ zs' = zs ∧ a = type := by
  cases type with
  | none => exact recovers_otherwise hzs (recovers_pure trivial ⟨rfl, rfl, rfl⟩)
  | some name =>
    refine recovers_choice rfl (recovers_identifier ?_)
    exact recovers_pure trivial ⟨rfl, rfl, rfl⟩

/-- An initial value, or none, is recovered in front of the semicolon. -/
private theorem recovers_initialValue {value : Option Expr}
    (hnormal : ∀ e ∈ value.toList, e.isNormal = true)
    (hw : ∀ y ∈ initialTerminals value, y.Writable) (hd : d ≤ maxNesting) :
    Recovers initialValue d (initialTerminals value ++ .sign ";" :: zs)
      (d + initialCost value ≤ maxNesting) fun a d' zs' =>
        d' = d ∧ zs' = .sign ";" :: zs ∧ a.map Expr.unnumbered = value.map Expr.unnumbered := by
  cases value with
  | none => exact recovers_otherwise rfl (recovers_pure hd ⟨rfl, rfl, rfl⟩)
  | some e =>
    refine recovers_choice rfl (Recovers.map ?_)
    refine (recovers_expression (hnormal e (by simp)) (fun y hy => hw y (List.mem_cons_of_mem _ hy))
      (by simp [closers])).imp Iff.rfl ?_
    rintro a _ _ - ⟨rfl, rfl, ha⟩
    exact ⟨rfl, rfl, by simp [ha]⟩

/-- A declaration is recovered with its annotation and its initial value. -/
private theorem recovers_declaration {x : Declaration}
    (hnormal : ∀ e ∈ x.initializer.toList, e.isNormal = true)
    (hw : ∀ y ∈ x.terminals, y.Writable) (hd : d ≤ maxNesting) :
    Recovers declaration d (x.terminals ++ zs) (d + initialCost x.initializer ≤ maxNesting)
      fun a d' zs' => d' = d ∧ zs' = zs ∧ a.unnumbered = x.unnumbered := by
  simp only [Declaration.terminals, List.cons_append, List.append_assoc, List.nil_append]
  refine recovers_expect rfl ?_
  refine recovers_identifier ?_
  -- Without an annotation stands an equals sign or the semicolon.
  have htype : spellsFirst (initialTerminals x.initializer ++ .sign ";" :: zs) ":" = false := by
    cases x.initializer <;> rfl
  refine (recovers_annotated htype).bind (fun _ => trivial) ?_
  rintro type _ _ - ⟨rfl, rfl, htypeName⟩
  refine (recovers_initialValue hnormal
    (fun y hy => hw y (by simp [Declaration.terminals, hy])) hd).bind (fun hfit => hfit) ?_
  rintro value _ _ hcost ⟨rfl, rfl, hvalue⟩
  refine recovers_expect rfl ?_
  refine recovers_fresh fun id => ?_
  exact recovers_pure hcost ⟨rfl, rfl, by simp [Declaration.unnumbered, htypeName, hvalue]⟩

/-- The reader finds every block, each of which is a level of its own, in front of one of the words
    that end it.  It has `n` turns left, which is enough. -/
def RecoversBlock (n : Nat) (block : BlockReader) : Prop :=
  ∀ (body : List Statement) (ys zs : List Terminal) (d : Nat) (first : String)
    (others : List String), Statement.YieldsAll body ys →
    (∀ e ∈ Statement.listExprs body, e.isNormal = true) → (∀ y ∈ ys, y.Writable) →
    (∀ w ∈ first :: others, w = "END" ∨ w = "ELSE") →
    (first :: others).any (spellsFirst zs) = true → maxNesting < n + d →
    Recovers (block first others) d (ys ++ zs) (d + (1 + Statement.listCost body) ≤ maxNesting)
      fun a d' zs' => d' = d ∧ zs' = zs ∧
        Statement.listUnnumbered a = Statement.listUnnumbered body

section Statements

variable {n : Nat} {block : BlockReader}

/-- An empty `ELSE` and none at all are recovered alike. -/
private theorem recovers_elseBlock (h : RecoversBlock n block) {body : List Statement}
    (hyields : Statement.YieldsElse body ys)
    (hnormal : ∀ e ∈ Statement.listExprs body, e.isNormal = true) (hw : ∀ y ∈ ys, y.Writable)
    (hn : maxNesting < n + d) (hd : d + 1 ≤ maxNesting) :
    Recovers (elseBlock block) d (ys ++ .keyword "END" :: zs)
      (d + (1 + Statement.listCost body) ≤ maxNesting) fun a d' zs' => d' = d ∧
        zs' = .keyword "END" :: zs ∧
        Statement.listUnnumbered a = Statement.listUnnumbered body := by
  cases hyields with
  | absent => exact recovers_otherwise rfl (recovers_pure hd ⟨rfl, rfl, rfl⟩)
  | present hbody =>
    exact recovers_choice rfl (h body _ _ d "END" [] hbody hnormal
      (fun y hy => hw y (List.mem_cons_of_mem _ hy)) (by simp) rfl hn)

private theorem recovers_ifStatement (h : RecoversBlock n block) {condition : Expr}
    {thenBody elseBody : List Statement} {ts es : List Terminal}
    (hthen : Statement.YieldsAll thenBody ts) (helse : Statement.YieldsElse elseBody es)
    (hnormal : ∀ e ∈ (Statement.ifElse condition thenBody elseBody).exprs, e.isNormal = true)
    (hw : ∀ y ∈ condition.terminals ++ (ts ++ es), y.Writable) (hn : maxNesting < n + d) :
    Recovers (ifStatement block) d
      (condition.terminals ++ .keyword "DO" :: (ts ++ (es ++ .keyword "END" :: zs)))
      (d + (Statement.ifElse condition thenBody elseBody).cost ≤ maxNesting) fun a d' zs' =>
        d' = d ∧ zs' = zs ∧
        a.unnumbered = (Statement.ifElse condition thenBody elseBody).unnumbered := by
  simp only [Statement.exprs, List.mem_cons, List.mem_append, or_imp, forall_and,
    forall_eq] at hnormal hw
  have hcost := Statement.ifElse_cost_le_iff condition thenBody elseBody (maxNesting - d)
  -- The first body ends at one of the two words, whether there is a second body or not.
  have hstop : ["ELSE", "END"].any (spellsFirst (es ++ .keyword "END" :: zs)) = true := by
    cases helse <;> rfl
  refine (recovers_expression hnormal.1 hw.1 (by simp [closers])).bind (fun hfit => by omega) ?_
  rintro c _ _ hcondition ⟨rfl, rfl, hc⟩
  refine recovers_expect rfl ?_
  refine (h thenBody ts _ _ "ELSE" ["END"] hthen hnormal.2.1 hw.2.1 (by simp) hstop hn).bind
    (fun hfit => by omega) ?_
  rintro t _ _ hthenCost ⟨rfl, rfl, ht⟩
  refine (recovers_elseBlock h helse hnormal.2.2 hw.2.2 hn (by omega)).bind
    (fun hfit => by omega) ?_
  rintro e _ _ helseCost ⟨rfl, rfl, he⟩
  refine recovers_expect rfl ?_
  exact recovers_pure (by omega) ⟨rfl, rfl, by simp [Statement.unnumbered, hc, ht, he]⟩

private theorem recovers_forStatement (h : RecoversBlock n block) {name : String} {iterable : Expr}
    {body : List Statement} {bs : List Terminal} (hbody : Statement.YieldsAll body bs)
    (hnormal : ∀ e ∈ (Statement.forIn name iterable body).exprs, e.isNormal = true)
    (hw : ∀ y ∈ iterable.terminals ++ bs, y.Writable) (hn : maxNesting < n + d) :
    Recovers (forStatement block) d
      (.name name :: .keyword "IN" :: (iterable.terminals ++
        .keyword "DO" :: (bs ++ .keyword "END" :: zs)))
      (d + (Statement.forIn name iterable body).cost ≤ maxNesting) fun a d' zs' =>
        d' = d ∧ zs' = zs ∧ a.unnumbered = (Statement.forIn name iterable body).unnumbered := by
  simp only [Statement.exprs, List.mem_cons, List.mem_append, or_imp, forall_and,
    forall_eq] at hnormal hw
  simp only [Statement.cost]
  -- The sequence fits if each of its parts does: the cost is the greatest of theirs.
  refine recovers_identifier ?_
  refine recovers_expect rfl ?_
  refine (recovers_expression hnormal.1 hw.1 (by simp [closers])).bind (fun hfit => by omega) ?_
  rintro e _ _ hiterable ⟨rfl, rfl, he⟩
  refine recovers_expect rfl ?_
  refine (h body bs _ _ "END" [] hbody hnormal.2 hw.2 (by simp) rfl hn).bind
    (fun hfit => by omega) ?_
  rintro b _ _ hcost ⟨rfl, rfl, hb⟩
  refine recovers_expect rfl ?_
  exact recovers_pure (by omega) ⟨rfl, rfl, by simp [Statement.unnumbered, he, hb]⟩

private theorem recovers_whileStatement (h : RecoversBlock n block) {condition : Expr}
    {body : List Statement} {bs : List Terminal} (hbody : Statement.YieldsAll body bs)
    (hnormal : ∀ e ∈ (Statement.whileDo condition body).exprs, e.isNormal = true)
    (hw : ∀ y ∈ condition.terminals ++ bs, y.Writable) (hn : maxNesting < n + d) :
    Recovers (whileStatement block) d
      (condition.terminals ++ .keyword "DO" :: (bs ++ .keyword "END" :: zs))
      (d + (Statement.whileDo condition body).cost ≤ maxNesting) fun a d' zs' =>
        d' = d ∧ zs' = zs ∧ a.unnumbered = (Statement.whileDo condition body).unnumbered := by
  simp only [Statement.exprs, List.mem_cons, List.mem_append, or_imp, forall_and,
    forall_eq] at hnormal hw
  simp only [Statement.cost]
  refine (recovers_expression hnormal.1 hw.1 (by simp [closers])).bind (fun hfit => by omega) ?_
  rintro e _ _ hcondition ⟨rfl, rfl, he⟩
  refine recovers_expect rfl ?_
  refine (h body bs _ _ "END" [] hbody hnormal.2 hw.2 (by simp) rfl hn).bind
    (fun hfit => by omega) ?_
  rintro b _ _ hcost ⟨rfl, rfl, hb⟩
  refine recovers_expect rfl ?_
  exact recovers_pure (by omega) ⟨rfl, rfl, by simp [Statement.unnumbered, he, hb]⟩

private theorem recovers_returnStatement {value : Expr} (hnormal : value.isNormal = true)
    (hw : ∀ y ∈ value.terminals, y.Writable) :
    Recovers returnStatement d (value.terminals ++ .sign ";" :: zs)
      (d + (Statement.returns value).cost ≤ maxNesting) fun a d' zs' =>
        d' = d ∧ zs' = zs ∧ a.unnumbered = (Statement.returns value).unnumbered := by
  refine (recovers_expression hnormal hw (by simp [closers])).bind (fun hfit => hfit) ?_
  rintro e _ _ hcost ⟨rfl, rfl, he⟩
  refine recovers_expect rfl ?_
  exact recovers_pure hcost ⟨rfl, rfl, by simp [Statement.unnumbered, he]⟩

private theorem recovers_assignment {target value : Expr}
    (hnormal : ∀ e ∈ (Statement.assign target value).exprs, e.isNormal = true)
    (hw : ∀ y ∈ target.terminals ++ value.terminals, y.Writable) :
    Recovers plainStatement d
      (target.terminals ++ .sign "=" :: (value.terminals ++ .sign ";" :: zs))
      (d + (Statement.assign target value).cost ≤ maxNesting) fun a d' zs' =>
        d' = d ∧ zs' = zs ∧ a.unnumbered = (Statement.assign target value).unnumbered := by
  simp only [Statement.exprs, List.mem_cons, List.mem_append, List.not_mem_nil, or_false, or_imp,
    forall_and, forall_eq] at hnormal hw
  simp only [Statement.cost]
  refine (recovers_expression hnormal.1 hw.1 (by simp [closers])).bind (fun hfit => by omega) ?_
  rintro t _ _ htarget ⟨rfl, rfl, ht⟩
  -- The equals sign is what tells an assignment from an expression.
  refine recovers_choice rfl ((recovers_expression hnormal.2 hw.2 (by simp [closers])).bind
    (fun hfit => by omega) ?_)
  rintro v _ _ hvalue ⟨rfl, rfl, hv⟩
  refine recovers_expect rfl ?_
  exact recovers_pure (by omega) ⟨rfl, rfl, by simp [Statement.unnumbered, ht, hv]⟩

private theorem recovers_expressionStatement {e : Expr} (hnormal : e.isNormal = true)
    (hw : ∀ y ∈ e.terminals, y.Writable) :
    Recovers plainStatement d (e.terminals ++ .sign ";" :: zs)
      (d + (Statement.expression e).cost ≤ maxNesting) fun a d' zs' =>
        d' = d ∧ zs' = zs ∧ a.unnumbered = (Statement.expression e).unnumbered := by
  refine (recovers_expression hnormal hw (by simp [closers])).bind (fun hfit => hfit) ?_
  rintro a _ _ hcost ⟨rfl, rfl, ha⟩
  refine recovers_otherwise rfl (recovers_expect rfl ?_)
  exact recovers_pure hcost ⟨rfl, rfl, by simp [Statement.unnumbered, ha]⟩

/-- A statement that is no declaration. -/
private theorem recovers_undeclared {p q : Parse Statement}
    {Q : Statement → Nat → List Terminal → Prop}
    (h : spellsFirst ys "LET" = false) (hq : Recovers q d ys fits Q) :
    Recovers (do if ← sees "LET" then p else q) d ys fits Q := by
  refine recovers_sees ?_
  rw [if_neg (by simp [h])]
  exact hq

/-- A statement that starts with no word of the grammar starts with an expression. -/
private theorem recovers_plain {Q : Statement → Nat → List Terminal → Prop} {e : Expr}
    (hw : ∀ y ∈ e.terminals, y.Writable)
    (h : Recovers plainStatement d (e.terminals ++ zs) fits Q) :
    Recovers (statement block) d (e.terminals ++ zs) fits Q := by
  have hfirst : ∀ w ∈ notFirst, spellsFirst (e.terminals ++ zs) w = false :=
    fun w hmem => Expr.spellsFirst_terminals hw hmem zs
  exact recovers_undeclared (hfirst "LET" (by simp [notFirst])) <|
    recovers_otherwise (hfirst "IF" (by simp [notFirst])) <|
    recovers_otherwise (hfirst "FOR" (by simp [notFirst])) <|
    recovers_otherwise (hfirst "WHILE" (by simp [notFirst])) <|
    recovers_otherwise (hfirst "RETURN" (by simp [notFirst])) h

/-- Statements are recovered by their first word. -/
private theorem recovers_statement (h : RecoversBlock n block) {s : Statement}
    (hyields : s.Yields ys) (hnormal : ∀ e ∈ s.exprs, e.isNormal = true) (hw : ∀ y ∈ ys, y.Writable)
    (hn : maxNesting < n + d) (hd : d ≤ maxNesting) :
    Recovers (statement block) d (ys ++ zs) (d + s.cost ≤ maxNesting) fun a d' zs' =>
      d' = d ∧ zs' = zs ∧ a.unnumbered = s.unnumbered := by
  -- The first word decides which statement it is; the branches before its own are passed over.
  cases hyields with
  | expression =>
    simp only [List.append_assoc, List.cons_append, List.nil_append]
    have hterminals := fun y hy => hw y (List.mem_append_left _ hy)
    exact recovers_plain hterminals
      (recovers_expressionStatement (hnormal _ (by simp [Statement.exprs])) hterminals)
  | @assign target value =>
    simp only [List.append_assoc, List.cons_append, List.nil_append]
    refine recovers_plain (fun y hy => hw y (by simp [hy])) (recovers_assignment hnormal ?_)
    intro y hy
    obtain hy | hy := List.mem_append.mp hy <;> exact hw y (by simp [hy])
  | declare =>
    refine recovers_sees ?_
    refine Recovers.map ((recovers_declaration hnormal hw hd).imp Iff.rfl ?_)
    rintro x _ _ - ⟨rfl, rfl, hx⟩
    exact ⟨rfl, rfl, by simp [Statement.unnumbered, hx]⟩
  | @ifElse condition thenBody elseBody ts es hthen helse =>
    simp only [List.append_assoc, List.cons_append, List.nil_append]
    refine recovers_undeclared rfl (recovers_choice rfl
      (recovers_ifStatement h hthen helse hnormal ?_ hn))
    intro y hy
    simp only [List.mem_append] at hy
    exact hw y (by simp; tauto)
  | @forIn name iterable body bs hbody =>
    simp only [List.append_assoc, List.cons_append, List.nil_append]
    refine recovers_undeclared rfl (recovers_otherwise rfl
      (recovers_choice rfl (recovers_forStatement h hbody hnormal ?_ hn)))
    intro y hy
    simp only [List.mem_append] at hy
    exact hw y (by simp; tauto)
  | @whileDo condition body bs hbody =>
    simp only [List.append_assoc, List.cons_append, List.nil_append]
    refine recovers_undeclared rfl (recovers_otherwise rfl (recovers_otherwise rfl
      (recovers_choice rfl (recovers_whileStatement h hbody hnormal ?_ hn))))
    intro y hy
    simp only [List.mem_append] at hy
    exact hw y (by simp; tauto)
  | @returns e =>
    simp only [List.append_assoc, List.cons_append, List.nil_append]
    exact recovers_undeclared rfl (recovers_otherwise rfl (recovers_otherwise rfl
      (recovers_otherwise rfl (recovers_choice rfl (recovers_returnStatement
        (hnormal _ (by simp [Statement.exprs])) fun y hy => hw y (by simp [hy]))))))

/-- No statement starts with a word that ends a block. -/
private theorem spellsFirst_statement {s : Statement} (hyields : s.Yields ys)
    (hw : ∀ y ∈ ys, y.Writable) {w : String} (hword : w = "END" ∨ w = "ELSE") (zs : List Terminal) :
    spellsFirst (ys ++ zs) w = false := by
  have hnotFirst : w ∈ notFirst := by obtain rfl | rfl := hword <;> simp [notFirst]
  cases hyields with
  | expression =>
    rw [List.append_assoc]
    exact Expr.spellsFirst_terminals (fun y hy => hw y (by simp [hy])) hnotFirst _
  | assign =>
    rw [List.append_assoc]
    exact Expr.spellsFirst_terminals (fun y hy => hw y (by simp [hy])) hnotFirst _
  | _ => obtain rfl | rfl := hword <;> rfl

/-- Blocks are recovered statement by statement, up to a closing word. -/
private theorem recovers_statements (h : RecoversBlock n block) {body : List Statement}
    (hyields : Statement.YieldsAll body ys)
    (hnormal : ∀ e ∈ Statement.listExprs body, e.isNormal = true) (hw : ∀ y ∈ ys, y.Writable)
    {first : String} {others : List String} (hwords : ∀ w ∈ first :: others, w = "END" ∨ w = "ELSE")
    (hstop : (first :: others).any (spellsFirst zs) = true) (hn : maxNesting < n + d)
    (hd : d ≤ maxNesting) (k : Nat) (done : List Statement) (hk : (ys ++ zs).length < k) :
    Recovers (statements (statement block) first others k done) d (ys ++ zs)
      (d + Statement.listCost body ≤ maxNesting) fun a d' zs' => d' = d ∧ zs' = zs ∧
        Statement.listUnnumbered a = Statement.listUnnumbered (done.reverse ++ body) := by
  induction body generalizing ys k done with
  | nil =>
    cases hyields
    obtain ⟨k, rfl⟩ : ∃ j, k = j + 1 := ⟨k - 1, by omega⟩
    refine recovers_seesAny ?_
    rw [List.nil_append, hstop]
    exact recovers_pure hd ⟨rfl, rfl, by simp⟩
  | cons s body ih =>
    cases hyields with
    | @cons _ _ ys ys' hs hrest =>
      obtain ⟨k, rfl⟩ : ∃ j, k = j + 1 := ⟨k - 1, by omega⟩
      simp only [Statement.listExprs, List.mem_append, or_imp, forall_and] at hnormal hw
      -- The block goes on, since a statement does not start with a word that ends it.
      have hgo : (first :: others).any (spellsFirst (ys ++ (ys' ++ zs))) = false := by
        rw [List.any_eq_false]
        intro w hmem
        simp [spellsFirst_statement hs hw.1 (hwords w hmem)]
      obtain ⟨y, rest, rfl⟩ := List.exists_cons_of_ne_nil hs.ne_nil
      rw [List.append_assoc]
      refine recovers_seesAny ?_
      rw [hgo]
      refine recovers_next fun t _ => ?_
      simp only [Statement.listCost]
      refine (recovers_statement h hs hnormal.1 hw.1 hn hd).bind (fun hfit => by omega) ?_
      rintro a _ _ hcost ⟨rfl, rfl, ha⟩
      refine (ih hrest hnormal.2 hw.2 k (a :: done) ?_).imp (by omega) ?_
      · simp at hk ⊢
        omega
      · rintro l _ _ - ⟨rfl, rfl, hl⟩
        refine ⟨rfl, rfl, ?_⟩
        simp only [Statement.listUnnumbered_eq_map] at hl ⊢
        simp [hl, ha]

end Statements

/-- Blocks within any depth, by induction on the depth that is left. -/
private theorem recovers_blockWithin (n : Nat) : RecoversBlock n (blockWithin n) := by
  induction n with
  | zero =>
    rintro body ys zs d first others - - - - - hn c - -
    exact ⟨by omega, rfl⟩
  | succ n ih =>
    intro body ys zs d first others hyields hnormal hw hwords hstop hn
    refine Recovers.restoringDepth (recovers_enter (fun hfit => by omega) fun hroom => ?_)
    refine recovers_remaining ?_
    refine (recovers_statements ih hyields hnormal hw hwords hstop (by omega) hroom _ []
      (Nat.lt_succ_self _)).imp (by omega) ?_
    rintro l _ _ - ⟨-, rfl, hl⟩
    exact ⟨rfl, hl⟩

/-! ## Programs -/

/-- Parameters are a list of names with annotations. -/
private theorem recovers_parameters {l : List Parameter}
    (hw : ∀ y ∈ separated Parameter.terminals l, y.Writable) :
    Recovers parameters d (separated Parameter.terminals l ++ .sign ")" :: zs) True
      fun a d' zs' => d' = d ∧ zs' = .sign ")" :: zs ∧ a = l := by
  refine recovers_sees ?_
  cases l with
  | nil => exact recovers_pure trivial ⟨rfl, rfl, rfl⟩
  | cons first more =>
    -- A list that is not empty does not start with the closing parenthesis.
    have hfirst : spellsFirst (separated Parameter.terminals (first :: more) ++ .sign ")" :: zs) ")"
        = false :=
      (hw (.name first.name) (by simp [separated, Parameter.terminals])).name_spells (.inr rfl)
    rw [hfirst]
    have hitem : ∀ p ∈ first :: more, RecoversItem parameter Parameter.terminals (fun _ => True) id
        (fun zs => spellsFirst zs ":" = false) d p := by
      intro p _ zs hzs
      refine recovers_identifier ((recovers_annotated hzs).bind (fun _ => trivial) ?_)
      rintro type _ _ - ⟨rfl, rfl, rfl⟩
      exact recovers_pure trivial ⟨rfl, rfl, rfl⟩
    refine (recovers_commaList hitem (fun _ => rfl) rfl rfl).imp (by simp) ?_
    rintro a _ _ - ⟨rfl, rfl, ha⟩
    exact ⟨rfl, rfl, by simpa using ha⟩

/-- A method is recovered with its parameters and its body. -/
private theorem recovers_method {m : Method} (hyields : m.Yields ys)
    (hnormal : ∀ e ∈ Statement.listExprs m.body, e.isNormal = true) (hw : ∀ y ∈ ys, y.Writable) :
    Recovers method d (ys ++ zs) (d + m.cost ≤ maxNesting) fun a d' zs' =>
      d' = d ∧ zs' = zs ∧ a.unnumbered = m.unnumbered := by
  cases hyields with
  | @intro bs hbody =>
    simp only [List.append_assoc, List.cons_append, List.nil_append]
    refine recovers_expect rfl (recovers_identifier (recovers_expect rfl ?_))
    -- Only the body can be too deep: parameters and annotations have no levels.
    refine (recovers_parameters fun y hy => hw y (by simp [hy])).bind (fun _ => trivial) ?_
    rintro parameters _ _ - ⟨rfl, rfl, hparameters⟩
    refine recovers_expect rfl ((recovers_annotated rfl).bind (fun _ => trivial) ?_)
    rintro type _ _ - ⟨rfl, rfl, htype⟩
    refine recovers_expect rfl ?_
    refine (recovers_blockWithin _ m.body bs _ _ "END" [] hbody hnormal
      (fun y hy => hw y (by simp [hy])) (by simp) rfl (by omega)).bind (fun hfit => hfit) ?_
    rintro body _ _ hcost ⟨rfl, rfl, hb⟩
    refine recovers_expect rfl (recovers_fresh fun id => ?_)
    exact recovers_pure hcost
      ⟨rfl, rfl, by simp [Method.unnumbered, hparameters, htype, hb]⟩

section Many

variable {item : Parse α} {P : α → List Terminal → Prop} {fitting : α → Prop} {key : α → γ}
  {lexeme : String}

/-- Repetitions are recovered item by item. -/
private theorem recovers_manyRounds {more : List α} {yss : List (List Terminal)}
    (hmore : List.Forall₂ P more yss) (hw : ∀ y ∈ yss.flatten, y.Writable)
    (h : ∀ a ∈ more, ∀ ys zs, P a ys → (∀ y ∈ ys, y.Writable) →
      Recovers item d (ys ++ zs) (fitting a) fun b d' zs' => d' = d ∧ zs' = zs ∧ key b = key a)
    (hfirst : ∀ a ys, P a ys → ∃ y rest, ys = y :: rest ∧ y.spells lexeme = true)
    (hzs : spellsFirst zs lexeme = false) (n : Nat) (done : List α)
    (hn : yss.flatten.length ≤ n) :
    Recovers (manyRounds lexeme item n done) d (yss.flatten ++ zs) (∀ a ∈ more, fitting a)
      fun l d' zs' => d' = d ∧ zs' = zs ∧ l.map key = (done.reverse ++ more).map key := by
  -- Every item takes at least its first word, so the rounds suffice.
  induction hmore generalizing n done with
  | nil =>
    have hstop : Recovers (pure done.reverse) d zs (∀ a ∈ ([] : List α), fitting a)
        fun l d' zs' => d' = d ∧ zs' = zs ∧ l.map key = (done.reverse ++ []).map key :=
      recovers_pure (by simp) ⟨rfl, rfl, by simp⟩
    cases n with
    | zero => exact hstop
    | succ n =>
      refine recovers_sees ?_
      rw [List.flatten_nil, List.nil_append, hzs]
      exact hstop
  | @cons a ys more yss ha _ ih =>
    obtain ⟨y, rest, rfl, hy⟩ := hfirst a ys ha
    simp only [List.flatten_cons, List.length_append, List.length_cons] at hn
    obtain ⟨n, rfl⟩ : ∃ k, n = k + 1 := ⟨n - 1, by omega⟩
    rw [List.flatten_cons] at hw
    rw [List.flatten_cons, List.append_assoc]
    refine recovers_sees ?_
    rw [show spellsFirst (y :: rest ++ (yss.flatten ++ zs)) lexeme = true from hy]
    refine (h a List.mem_cons_self _ _ ha fun x hx => hw x (List.mem_append_left _ hx)).bind
      (fun hall => hall a List.mem_cons_self) ?_
    rintro b _ _ hfit ⟨rfl, rfl, hb⟩
    refine (ih (fun x hx => hw x (List.mem_append_right _ hx))
      (fun x hx => h x (List.mem_cons_of_mem a hx)) n (b :: done) (by omega)).imp
      (by simp [hfit]) ?_
    rintro l _ _ - ⟨rfl, rfl, hl⟩
    exact ⟨rfl, rfl, by simp [hl, hb]⟩

private theorem recovers_manyAt (key : α → γ) {l : List α} {yss : List (List Terminal)}
    (hl : List.Forall₂ P l yss) (hw : ∀ y ∈ yss.flatten, y.Writable)
    (h : ∀ a ∈ l, ∀ ys zs, P a ys → (∀ y ∈ ys, y.Writable) →
      Recovers item d (ys ++ zs) (fitting a) fun b d' zs' => d' = d ∧ zs' = zs ∧ key b = key a)
    (hfirst : ∀ a ys, P a ys → ∃ y rest, ys = y :: rest ∧ y.spells lexeme = true)
    (hzs : spellsFirst zs lexeme = false) :
    Recovers (manyAt lexeme item) d (yss.flatten ++ zs) (∀ a ∈ l, fitting a)
      fun l' d' zs' => d' = d ∧ zs' = zs ∧ l'.map key = l.map key :=
  recovers_remaining (recovers_manyRounds hl hw h hfirst hzs _ [] (by simp))

end Many

/-- The whole program is recovered up to its ids. -/
private theorem recovers_source {s : Source} (hyields : s.Yields ys)
    (hnormal : ∀ e ∈ s.exprs, e.isNormal = true) (hw : ∀ y ∈ ys, y.Writable) :
    Recovers source 0 ys (s.cost ≤ maxNesting) fun a _ _ => a.unnumbered = s.unnumbered := by
  cases hyields with
  | @intro zss hmethods =>
    simp only [Source.exprs, List.mem_append, List.mem_flatMap, or_imp, forall_and,
      forall_exists_index, and_imp] at hnormal
    simp only [List.flatMap_def, List.mem_append, or_imp, forall_and] at hw ⊢
    have hcost : s.cost ≤ maxNesting ↔
        (∀ x ∈ s.fields, 0 + initialCost x.initializer ≤ maxNesting) ∧
          ∀ m ∈ s.methods, 0 + m.cost ≤ maxNesting := by
      simp [Source.cost_le_iff]
    have hfields : List.Forall₂ (fun x ys => ys = x.terminals) s.fields
        (s.fields.map Declaration.terminals) := by
      rw [List.forall₂_map_right_iff, List.forall₂_same]
      exact fun _ _ => rfl
    -- The fields end at the first method, which does not start like a field.
    have hstart : spellsFirst zss.flatten "LET" = false := by
      revert hmethods
      generalize s.methods = methods
      rintro (_ | ⟨⟨_⟩, _⟩) <;> rfl
    refine (recovers_manyAt Declaration.unnumbered hfields hw.1 ?_ ?_ hstart).bind
      (fun hfit => (hcost.mp hfit).1) ?_
    · rintro x hx _ zs rfl hwritable
      exact recovers_declaration (fun e he => hnormal.1 e x hx he) hwritable (Nat.zero_le _)
    · rintro x _ rfl
      exact ⟨_, _, rfl, rfl⟩
    rintro fields _ _ hfitFields ⟨rfl, rfl, hfieldsEq⟩
    rw [← List.append_nil zss.flatten]
    refine (recovers_manyAt Method.unnumbered hmethods hw.2 ?_ ?_ rfl).bind
      (fun hfit => (hcost.mp hfit).2) ?_
    · intro m hm ys zs hys hwritable
      exact recovers_method hys (fun e he => hnormal.2 e m hm he) hwritable
    · rintro m _ ⟨_⟩
      exact ⟨_, _, rfl, rfl⟩
    rintro methods _ _ hfitMethods ⟨rfl, rfl, hmethodsEq⟩
    refine recovers_end (recovers_pure (hcost.mpr ⟨hfitFields, hfitMethods⟩) ?_)
    simp [Source.unnumbered, hfieldsEq, hmethodsEq]

end Rules

end Parse

/-- What becomes of the terminals of a program: the program itself, up to the numbers of its nodes,
    if it does not nest too far, and a complaint about the nesting otherwise. -/
theorem parse_of_yields {s : Source} {ys : List Terminal} {tokens : List Token}
    (hyields : s.Yields ys) (hnormal : ∀ e ∈ s.exprs, e.isNormal = true)
    (hw : ∀ y ∈ ys, y.Writable) (htokens : List.Forall₂ Terminal.Matches ys tokens) :
    (s.cost ≤ maxNesting → ∃ s', parse tokens = .ok s' ∧ s'.unnumbered = s.unnumbered) ∧
      (maxNesting < s.cost → ∃ offset, parse tokens = .error ⟨offset, .tooDeep⟩) := by
  have hrun := Parse.recovers_source hyields hnormal hw (Cursor.start tokens) rfl htokens
  unfold Ends at hrun
  unfold parse
  -- What is recovered decides both halves: a tree if the program fits, and the one fault otherwise.
  cases hsource : Parse.source (Cursor.start tokens) with
  | ok s' c =>
    rw [hsource] at hrun
    obtain ⟨hcost, _, _, hs'⟩ := hrun
    exact ⟨fun _ => ⟨s', rfl, hs'⟩, fun hdeep => by omega⟩
  | error e c =>
    rw [hsource] at hrun
    obtain ⟨offset, fault⟩ := e
    obtain ⟨hcost, rfl⟩ := hrun
    exact ⟨fun hfit => absurd hfit hcost, fun _ => ⟨offset, rfl⟩⟩

end LetLang
