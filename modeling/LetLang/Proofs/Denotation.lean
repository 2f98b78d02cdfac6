import LetLang.Proofs.Cursor
import LetLang.Proofs.Numbering
import LetLang.Proofs.Scanning
import Mathlib.Data.Nat.Digits.Defs

/-! # What literal tokens denote

The lexer checks the shape of a literal and the parser reads its value later, from the lexeme
alone.  `Token.Denotes` says what a lexeme means without either of them: numbers by the places of
their digits, quoted text by what each escape stands for.

* `Token.Denotes.ofToken?_eq`            a token is read as what it denotes
* `Token.WellFormed.denotes`             and a literal token that the lexer finds denotes something
* `isSlice_quoted`                       the bytes between the quotes are the body
* `Parse.converts_source`                so no literal of a scanned text is refused
* `literal_tokens_denote`                all of it, for every text that can be scanned -/

namespace LetLang

/-! ## Numbers -/

namespace Numeral

/-- The number that digits stand for, each weighted by its place. -/
def value (cs : List Char) : Nat :=
  Nat.ofDigits 10 (cs.reverse.map fun c => c.toNat - '0'.toNat)

/-- The integer of a magnitude behind a sign. -/
def behindSign (sgn : List Char) (n : Nat) : Int := if sgn = ['-'] then -n else n

/-- The first digit counts for a power of ten. -/
private theorem value_cons (c : Char) (cs : List Char) :
    value (c :: cs) = (c.toNat - '0'.toNat) * 10 ^ cs.length + value cs := by
  simp only [value, List.reverse_cons, List.map_append, Nat.ofDigits_append, List.map_cons,
    List.map_nil, Nat.ofDigits_singleton, List.length_map, List.length_reverse]
  ring

/-- Digits that are read from the left add up to their places. -/
private theorem ofDigits_eq_value (cs : List Char) : ofDigits cs = value cs := by
  induction cs with
  | nil => rfl
  | cons c cs ih =>
    -- The first digit is passed on to the others and multiplied by ten at each of them.
    rw [value_cons, ← ih, ofDigits, Nat.ofDigitChars_cons, Nat.ofDigitChars_eq_ofDigitChars_zero]
    simp only [ofDigits]
    ring

/-- The sign is the text in front of the digits. -/
private theorem signed_eq_behindSign (sgn : List Char) (n : Nat) :
    signed (sgn = ['-']) n = behindSign sgn n := by
  simp [signed, behindSign]

end Numeral

/-! ## Quoted text -/

/-- The escapes that stand for another character than the one behind the backslash. -/
def controlEscapes : List (Char × Char) := [('b', '\x08'), ('n', '\n'), ('r', '\r'), ('t', '\t')]

/-- The body of a literal and the text that it stands for. -/
inductive Decodes : List Char → List Char → Prop where
  | nil : Decodes [] []
  | verbatim {c : Char} {body text : List Char} :
    c ≠ '\\' → Decodes body text → Decodes (c :: body) (c :: text)
  | control {e c : Char} {body text : List Char} :
    (e, c) ∈ controlEscapes → Decodes body text → Decodes ('\\' :: e :: body) (c :: text)
  | itself {e : Char} {body text : List Char} :
    (∀ c, (e, c) ∉ controlEscapes) → Decodes body text → Decodes ('\\' :: e :: body) (e :: text)

/-- The letters of the control escapes stand for control characters. -/
private theorem unescapeChar_of_control {e c : Char} (h : (e, c) ∈ controlEscapes) :
    Literal.unescapeChar e = c := by
  simp only [controlEscapes, List.mem_cons, Prod.mk.injEq, List.not_mem_nil, or_false] at h
  obtain ⟨rfl, rfl⟩ | ⟨rfl, rfl⟩ | ⟨rfl, rfl⟩ | ⟨rfl, rfl⟩ := h <;> rfl

/-- Every other escaped character stands for itself. -/
private theorem unescapeChar_of_not_control {e : Char} (h : ∀ c, (e, c) ∉ controlEscapes) :
    Literal.unescapeChar e = e := by
  simp only [controlEscapes, List.mem_cons, Prod.mk.injEq, List.not_mem_nil, or_false, not_or,
    not_and] at h
  unfold Literal.unescapeChar
  rw [if_neg (fun he => (h '\x08').1 he rfl), if_neg (fun he => (h '\n').2.1 he rfl),
    if_neg (fun he => (h '\r').2.2.1 he rfl), if_neg (fun he => (h '\t').2.2.2 he rfl)]

/-- Escapes are replaced as the body is decoded. -/
private theorem Decodes.unescape_eq {body text : List Char} (h : Decodes body text) :
    Literal.unescape body = text := by
  induction h with
  | nil => rfl
  | @verbatim c body _ hslash _ ih => cases body <;> simpa [Literal.unescape, hslash] using ih
  | control hmem _ ih => simp [Literal.unescape, unescapeChar_of_control hmem, ih]
  | itself hmem _ ih => simp [Literal.unescape, unescapeChar_of_not_control hmem, ih]

/-- A character that is written between quotes is decoded again, in front of any text. -/
private theorem Written.decodes {quote c : Char} {unit body text : List Char}
    (h : Written quote c unit)
    (hbody : Decodes body text) : Decodes (unit ++ body) (c :: text) := by
  cases h with
  | plain _ hslash _ => exact .verbatim hslash hbody
  | @escaped e c hmem =>
    by_cases hcontrol : (e, c) ∈ controlEscapes
    · exact .control hcontrol hbody
    · -- The other escapes are those of the quotes and of the backslash.
      obtain rfl : e = c := by
        simp only [escapes, controlEscapes, List.mem_cons, Prod.mk.injEq, List.not_mem_nil,
          or_false] at hmem hcontrol
        grind
      have hquote : e = '\'' ∨ e = '"' ∨ e = '\\' := by
        simp only [escapes, List.mem_cons, Prod.mk.injEq, List.not_mem_nil, or_false] at hmem
        grind
      refine .itself (fun c' => ?_) hbody
      obtain rfl | rfl | rfl := hquote <;> simp [controlEscapes]

/-- What is written character by character is decoded in the same way. -/
private theorem WrittenAll.decodes {quote : Char} {text body : List Char}
    (h : WrittenAll quote text body) : Decodes body text := by
  induction h with
  | nil => exact .nil
  | cons hunit _ ih => exact hunit.decodes ih

/-! ## Denotations -/

/-- The values that a token denotes; a word or an operator denotes none. -/
def Token.Denotes (t : Token) (v : Literal) : Prop :=
  match t.kind with
  | .integer => ∃ sgn digits, t.lexeme.toList = sgn ++ digits ∧ IsSign sgn ∧
      Numeral.isDigits digits = true ∧
      v = .integer (Numeral.behindSign sgn (Numeral.value digits))
  | .decimal => ∃ sgn whole fraction, t.lexeme.toList = sgn ++ (whole ++ '.' :: fraction) ∧
      IsSign sgn ∧ Numeral.isDigits whole = true ∧ Numeral.isDigits fraction = true ∧
      v = .decimal ⟨Numeral.behindSign sgn (Numeral.value (whole ++ fraction)), fraction.length⟩
  | .character => ∃ body c, t.lexeme.toList = '\'' :: (body ++ ['\'']) ∧ Decodes body [c] ∧
      v = .character c
  | .string => ∃ body text, t.lexeme.toList = '"' :: (body ++ ['"']) ∧ Decodes body text ∧
      v = .string (String.ofList text)
  | .identifier | .operator => False

/-- The kinds of token whose lexeme is a literal of its own form. -/
def Token.Kind.IsLiteral (kind : Token.Kind) : Prop :=
  kind = .integer ∨ kind = .decimal ∨ kind = .character ∨ kind = .string

/-- A token is read as what it denotes. -/
theorem Token.Denotes.ofToken?_eq {t : Token} {v : Literal} (h : t.Denotes v) :
    Literal.ofToken? t = some v := by
  obtain ⟨kind, lexeme, offset⟩ := t
  -- Each kind is read the way it is written.
  cases kind with
  | integer =>
    obtain ⟨sgn, digits, hlexeme, hs, hd, rfl⟩ := h
    simp only [Literal.ofToken?, hlexeme, Numeral.integer?_append hs hd, Option.map_some,
      Numeral.signed_eq_behindSign, Numeral.ofDigits_eq_value]
  | decimal =>
    obtain ⟨sgn, whole, fraction, hlexeme, hs, hw, hf, rfl⟩ := h
    simp only [Literal.ofToken?, hlexeme, Decimal.ofNumeral?_append hs hw hf, Option.map_some,
      Numeral.signed_eq_behindSign, Numeral.ofDigits_eq_value]
  | character =>
    obtain ⟨body, c, hlexeme, hbody, rfl⟩ := h
    simp only [Literal.ofToken?, hlexeme, Literal.unquote?_quoted, Option.bind_eq_bind,
      Option.bind_some, hbody.unescape_eq, List.head?_cons, Option.map_some]
  | string =>
    obtain ⟨body, text, hlexeme, hbody, rfl⟩ := h
    simp only [Literal.ofToken?, hlexeme, Literal.unquote?_quoted, Option.bind_eq_bind,
      Option.bind_some, hbody.unescape_eq, Option.pure_def]
  | identifier => exact h.elim
  | operator => exact h.elim

/-- A literal token whose lexeme is one of its kind denotes something. -/
theorem Token.WellFormed.denotes {t : Token} (ht : t.WellFormed) (hkind : t.kind.IsLiteral) :
    ∃ v, t.Denotes v := by
  obtain ⟨kind, lexeme, offset⟩ := t
  simp only [Token.WellFormed] at ht
  obtain rfl | rfl | rfl | rfl := hkind
  all_goals
    simp only [Token.Denotes]
    -- Each kind has one form of lexeme, and that form denotes something.
    generalize lexeme.toList = cs at ht
  · cases ht with
    | integer hs hd => exact ⟨_, _, _, rfl, hs, hd, rfl⟩
  · cases ht with
    | decimal hs hw hf => exact ⟨_, _, _, _, rfl, hs, hw, hf, rfl⟩
  · cases ht with
    | @character c unit hunit =>
      have hbody := hunit.decodes .nil
      rw [List.append_nil] at hbody
      exact ⟨_, _, _, rfl, hbody, rfl⟩
  · cases ht with
    | string hunits => exact ⟨_, _, _, rfl, hunits.decodes, rfl⟩

/-! ## Slices -/

/-- The bytes `first` to `last` of a text are there, start and end between two characters, and are
    those of `part`. -/
structure IsSlice (text : String) (first last : Nat) (part : String) : Prop where
  le : first ≤ last
  first_valid : String.Pos.Raw.IsValid text ⟨first⟩
  last_valid : String.Pos.Raw.IsValid text ⟨last⟩
  bytes_eq : text.toByteArray.extract first last = part.toByteArray

/-- What stands between two texts is a slice of the whole. -/
private theorem isSlice_append (front part back : String) :
    IsSlice (front ++ part ++ back) front.utf8ByteSize (front.utf8ByteSize + part.utf8ByteSize)
      part where
  le := Nat.le_add_right _ _
  first_valid := by
    apply String.Pos.Raw.isValid_iff_exists_append.mpr
    exact ⟨front, part ++ back, String.append_assoc .., rfl⟩
  last_valid := by
    apply String.Pos.Raw.isValid_iff_exists_append.mpr
    refine ⟨front ++ part, back, rfl, ?_⟩
    simp [String.Pos.Raw.ext_iff]
  bytes_eq := by
    rw [String.toByteArray_append, String.toByteArray_append, ByteArray.append_assoc]
    -- First the bytes in front are passed over, then those behind are left.
    calc _ = (part.toByteArray ++ back.toByteArray).extract 0 part.toByteArray.size :=
          ByteArray.extract_append_size_add
      _ = part.toByteArray := ByteArray.extract_append_eq_left rfl

/-- The bytes between two quotes are those of the body. -/
theorem isSlice_quoted {quote : Char} (hquote : quote.utf8Size = 1) (body : List Char) :
    IsSlice (String.ofList (quote :: (body ++ [quote]))) 1
      ((String.ofList (quote :: (body ++ [quote]))).utf8ByteSize - 1) (String.ofList body) := by
  -- The body starts behind the one byte of the first quote and ends before that of the last.
  have hsize : (String.singleton quote).utf8ByteSize = 1 := by simp [hquote]
  have htext : String.ofList (quote :: (body ++ [quote])) =
      String.singleton quote ++ String.ofList body ++ String.singleton quote := by
    rw [String.singleton_eq_ofList, ← String.ofList_append, ← String.ofList_append]
    rfl
  have hslice := isSlice_append (String.singleton quote) (String.ofList body)
    (String.singleton quote)
  rw [← htext, hsize] at hslice
  have hlast : (String.ofList (quote :: (body ++ [quote]))).utf8ByteSize - 1 =
      1 + (String.ofList body).utf8ByteSize := by
    rw [htext, String.utf8ByteSize_append, String.utf8ByteSize_append, hsize, Nat.add_sub_cancel]
  rwa [hlast]

/-- The quotes of a literal are cut off by bytes as by characters. -/
private theorem Token.WellFormed.isSlice {t : Token} (ht : t.WellFormed)
    (hkind : t.kind = .character ∨ t.kind = .string) :
    ∃ body, Literal.unquote? t.lexeme.toList = some body ∧
      IsSlice t.lexeme 1 (t.lexeme.utf8ByteSize - 1) (String.ofList body) := by
  obtain ⟨kind, lexeme, offset⟩ := t
  obtain ⟨cs, rfl⟩ : ∃ cs, lexeme = String.ofList cs := ⟨lexeme.toList, String.ofList_toList.symm⟩
  simp only [Token.WellFormed, String.toList_ofList] at ht hkind ⊢
  obtain rfl | rfl := hkind
  · cases ht with
    | character _ => exact ⟨_, Literal.unquote?_quoted _ _, isSlice_quoted rfl _⟩
  · cases ht with
    | string _ => exact ⟨_, Literal.unquote?_quoted _ _, isSlice_quoted rfl _⟩

/-! ## The parser -/

/-- A token that the parser does not read as a literal is of another kind. -/
private theorem Token.WellFormed.not_isLiteral {t : Token} (ht : t.WellFormed)
    (h : Literal.ofToken? t = none) : ¬t.kind.IsLiteral := by
  intro hkind
  obtain ⟨v, hv⟩ := ht.denotes hkind
  exact nomatch h.symm.trans hv.ofToken?_eq

namespace Parse

variable {α β : Type}

/-- Before tokens with lexemes of their kinds the step never complains of a literal, and it leaves
    such tokens. -/
def Converts (p : Parse α) : Prop :=
  ∀ c, (∀ t ∈ c.rest, t.WellFormed) →
    Ends p c (fun _ d => ∀ t ∈ d.rest, t.WellFormed) fun e _ => e.fault ≠ .invalidLiteral

private theorem converts_pure (a : α) : Converts (pure a) := fun _ hc => hc

/-- Every other fault is one that may be raised. -/
private theorem converts_fail (fault : ParseFault) (h : fault ≠ .invalidLiteral) :
    Converts (fail fault : Parse α) := fun _ _ => h

/-- A sequence converts its literals if its parts do. -/
theorem Converts.bind {p : Parse α} {f : α → Parse β} (hp : Converts p)
    (hf : ∀ a, Converts (f a)) : Converts (p >>= f) := by
  intro c hc
  exact (hp c hc).bind fun a d _ hd => hf a d hd

theorem Converts.ite {p : Prop} [Decidable p] {x y : Parse α} (hx : Converts x)
    (hy : Converts y) : Converts (if p then x else y) := by
  split
  · exact hx
  · exact hy

theorem Converts.map {p : Parse α} {f : α → β} (h : Converts p) : Converts (f <$> p) := by
  intro c hc
  rw [ends_map]
  exact h c hc

theorem Converts.restoringDepth {p : Parse α} (h : Converts p) :
    Converts (restoringDepth p) := by
  intro c hc
  rw [ends_restoringDepth]
  exact h c hc

/-! ### Steps -/

private theorem converts_peek : Converts peek := fun _ hc => hc

private theorem converts_sees (lexeme : String) : Converts (sees lexeme) := fun _ hc => hc

private theorem converts_seesAny (words : List String) : Converts (seesAny words) := fun _ hc => hc

private theorem converts_remaining : Converts remaining := fun _ hc => hc

private theorem converts_operatorAt (level : Level) : Converts (operatorAt level) := fun _ hc => hc

private theorem converts_fresh : Converts fresh := fun _ hc => hc

/-- Advancing leaves well-formed tokens. -/
private theorem converts_advance : Converts advance := by
  intro c hc
  rw [ends_advance]
  unfold Cursor.advance
  split
  · rename_i s rest hrest
    exact fun t ht => hc t (by rw [hrest]; exact List.mem_cons_of_mem s ht)
  · exact hc

private theorem converts_accept (lexeme : String) : Converts (accept lexeme) := by
  intro c hc
  rw [ends_accept]
  split
  · exact converts_advance c hc
  · exact hc

private theorem converts_enter : Converts enter := by
  intro c hc
  rw [ends_enter]
  split
  · simp
  · exact hc

private theorem converts_expect (lexeme : String) : Converts (expect lexeme) :=
  (converts_accept lexeme).bind fun _ => .ite (converts_pure ()) (converts_fail _ nofun)

private theorem converts_identifier : Converts identifier := by
  refine converts_peek.bind fun next => ?_
  cases next with
  | none => exact converts_fail _ nofun
  | some t =>
    exact .ite (converts_advance.bind fun _ => converts_pure t.lexeme) (converts_fail _ nofun)

/-- A list raises what its items raise. -/
private theorem converts_commaRounds {item : Parse α} (h : Converts item) (n : Nat)
    (done : List α) :
    Converts (commaRounds item n done) := by
  induction n generalizing done with
  | zero => exact converts_pure _
  | succ n ih =>
    refine (converts_accept ",").bind fun _ => .ite ?_ (converts_pure _)
    exact h.bind fun a => ih (a :: done)

private theorem converts_commaList {item : Parse α} (h : Converts item) :
    Converts (commaList item) :=
  h.bind fun a => converts_remaining.bind fun n => converts_commaRounds h n [a]

/-- A repetition raises what its items raise. -/
private theorem converts_manyRounds {item : Parse α} (lexeme : String) (h : Converts item) (n : Nat)
    (done : List α) : Converts (manyRounds lexeme item n done) := by
  induction n generalizing done with
  | zero => exact converts_pure _
  | succ n ih =>
    refine (converts_sees lexeme).bind fun _ => .ite ?_ (converts_pure _)
    exact h.bind fun a => ih (a :: done)

private theorem converts_manyAt {item : Parse α} (lexeme : String) (h : Converts item) :
    Converts (manyAt lexeme item) :=
  converts_remaining.bind fun n => converts_manyRounds lexeme h n []

/-! ### Expressions -/

section Expressions

variable {expression : Parse Expr}

/-- Arguments are a list of expressions, or the fault is the closing parenthesis. -/
private theorem converts_arguments (h : Converts expression) : Converts (arguments expression) := by
  refine (converts_accept ")").bind fun _ => .ite (converts_pure _) ?_
  exact (converts_commaList h).bind fun items => (converts_expect ")").bind fun _ =>
    converts_pure items

/-- Making a node cannot fail. -/
private theorem converts_node (make : NodeId → Expr) : Converts (do return make (← fresh)) :=
  converts_fresh.bind fun id => converts_pure (make id)

/-- This is where literals are read: a token that is none of them is a word or an operator. -/
private theorem converts_primary (h : Converts expression) : Converts (primary expression) := by
  intro c hc
  refine ends_bind.mpr (ends_peek.mpr ?_)
  cases hrest : c.rest with
  | nil => exact converts_fail .expectedExpression nofun c hc
  | cons t rest =>
    have hliteral := (hc t (by rw [hrest]; exact List.mem_cons_self)).not_isLiteral
    simp only [List.head?_cons]
    -- The tokens in front of the cursor are well-formed, so a literal that has no value is ruled
    -- out.
    cases hvalue : Literal.ofToken? t with
    | some value =>
      exact (converts_advance.bind fun _ => converts_node (.literal · value)) c hc
    | none =>
      simp only [Token.Kind.IsLiteral, not_or] at hliteral
      cases hkind : t.kind with
      | identifier =>
        refine (converts_advance.bind fun _ => (converts_accept "(").bind fun _ => .ite ?_ ?_) c hc
        · exact (converts_arguments h).bind fun items => converts_node (.call · t.lexeme items)
        · exact converts_node (.var · t.lexeme)
      | operator =>
        have hgroup : Converts (do
            advance
            let inner ← expression
            if ← accept ")" then return .group (← fresh) inner
            else fail .unterminatedParenthesis : Parse Expr) :=
          converts_advance.bind fun _ => h.bind fun inner => (converts_accept ")").bind fun _ =>
            .ite (converts_node (.group · inner)) (converts_fail _ nofun)
        exact Converts.ite (p := t.lexeme = "(") hgroup (converts_fail .expectedExpression nofun)
          c hc
      -- The kinds of literals all have values, as shown above.
      | integer => exact absurd hkind (hliteral hvalue).1
      | decimal => exact absurd hkind (hliteral hvalue).2.1
      | character => exact absurd hkind (hliteral hvalue).2.2.1
      | string => exact absurd hkind (hliteral hvalue).2.2.2

/-- Every link of a chain is a name, with arguments or without. -/
private theorem converts_links (h : Converts expression) (n : Nat) (receiver : Expr) :
    Converts (links expression n receiver) := by
  induction n generalizing receiver with
  | zero => exact converts_pure receiver
  | succ n ih =>
    refine (converts_accept ".").bind fun _ => .ite ?_ (converts_pure receiver)
    refine converts_enter.bind fun _ => converts_identifier.bind fun name => ?_
    refine (converts_accept "(").bind fun _ => .ite ?_ ?_
    · exact (converts_arguments h).bind fun items => converts_fresh.bind fun id =>
        ih (.invoke id receiver name items)
    · exact converts_fresh.bind fun id => ih (.field id receiver name)

private theorem converts_secondary (h : Converts expression) : Converts (secondary expression) :=
  ((converts_primary h).bind fun first => converts_remaining.bind fun n =>
    converts_links h n first).restoringDepth

/-- Every link of an operator chain is an operand. -/
private theorem converts_chain {operand : Parse Expr} (level : Level) (h : Converts operand)
    (n : Nat) (left : Expr) : Converts (chain level operand n left) := by
  induction n generalizing left with
  | zero => exact converts_pure left
  | succ n ih =>
    refine (converts_operatorAt level).bind fun next => ?_
    cases next with
    | none => exact converts_pure left
    | some operator =>
      refine converts_enter.bind fun _ => converts_advance.bind fun _ => h.bind fun right => ?_
      exact converts_fresh.bind fun id => ih (.binary id operator left right)

private theorem converts_binaryLevel {operand : Parse Expr} (level : Level) (h : Converts operand) :
    Converts (binaryLevel level operand) :=
  (h.bind fun left => converts_remaining.bind fun n => converts_chain level h n left).restoringDepth

/-- Expressions within any depth, by induction on the depth that is left. -/
private theorem converts_expressionWithin (n : Nat) : Converts (expressionWithin n) := by
  induction n with
  | zero => exact converts_fail _ nofun
  | succ n ih =>
    refine (converts_enter.bind fun _ => ?_).restoringDepth
    have htight := converts_binaryLevel .multiplicative (converts_secondary ih)
    exact converts_binaryLevel .logical
      (converts_binaryLevel .comparison (converts_binaryLevel .additive htight))

private theorem converts_expression : Converts Parse.expression := converts_expressionWithin _

end Expressions

/-! ### Statements and programs -/

private theorem converts_annotation : Converts annotation := by
  refine (converts_accept ":").bind fun _ => .ite ?_ (converts_pure none)
  exact converts_identifier.bind fun name => converts_pure (some name)

private theorem converts_declaration : Converts declaration := by
  have hvalue : Converts initialValue :=
    (converts_accept "=").bind fun _ => .ite converts_expression.map (converts_pure none)
  refine (converts_expect "LET").bind fun _ => converts_identifier.bind fun name => ?_
  refine converts_annotation.bind fun typeName => hvalue.bind fun value => ?_
  exact (converts_expect ";").bind fun _ => converts_fresh.bind fun id => converts_pure _

section Blocks

variable {block : BlockReader}

private theorem converts_ifStatement (h : ∀ first others, Converts (block first others)) :
    Converts (ifStatement block) := by
  have helse : Converts (elseBlock block) :=
    (converts_accept "ELSE").bind fun _ => .ite (h _ _) (converts_pure [])
  refine converts_expression.bind fun condition => (converts_expect "DO").bind fun _ => ?_
  refine (h _ _).bind fun thenBody => helse.bind fun elseBody => ?_
  exact (converts_expect "END").bind fun _ => converts_pure _

private theorem converts_forStatement (h : ∀ first others, Converts (block first others)) :
    Converts (forStatement block) := by
  refine converts_identifier.bind fun name => (converts_expect "IN").bind fun _ => ?_
  refine converts_expression.bind fun iterable => (converts_expect "DO").bind fun _ => ?_
  exact (h _ _).bind fun body => (converts_expect "END").bind fun _ => converts_pure _

private theorem converts_whileStatement (h : ∀ first others, Converts (block first others)) :
    Converts (whileStatement block) := by
  refine converts_expression.bind fun condition => (converts_expect "DO").bind fun _ => ?_
  exact (h _ _).bind fun body => (converts_expect "END").bind fun _ => converts_pure _

private theorem converts_terminated (make : Expr → Statement) :
    Converts (do let value ← Parse.expression; expect ";"; return make value) :=
  converts_expression.bind fun value => (converts_expect ";").bind fun _ =>
    converts_pure (make value)

private theorem converts_plainStatement : Converts plainStatement := by
  refine converts_expression.bind fun first => (converts_accept "=").bind fun _ => .ite ?_ ?_
  · exact converts_terminated (.assign first)
  · exact (converts_expect ";").bind fun _ => converts_pure _

private theorem converts_statement (h : ∀ first others, Converts (block first others)) :
    Converts (statement block) := by
  refine (converts_sees "LET").bind fun _ => .ite converts_declaration.map ?_
  refine (converts_accept "IF").bind fun _ => .ite (converts_ifStatement h) ?_
  refine (converts_accept "FOR").bind fun _ => .ite (converts_forStatement h) ?_
  refine (converts_accept "WHILE").bind fun _ => .ite (converts_whileStatement h) ?_
  exact (converts_accept "RETURN").bind fun _ =>
    .ite (converts_terminated .returns) converts_plainStatement

/-- Statements up to a closing word. -/
private theorem converts_statements {item : Parse Statement} (h : Converts item) (first : String)
    (others : List String) (n : Nat) (done : List Statement) :
    Converts (statements item first others n done) := by
  induction n generalizing done with
  | zero => exact converts_fail _ nofun
  | succ n ih =>
    refine (converts_seesAny _).bind fun _ => .ite (converts_pure _) ?_
    refine converts_peek.bind fun next => ?_
    cases next with
    | none => exact converts_fail _ nofun
    | some t => exact h.bind fun s => ih (s :: done)

/-- Blocks within any depth, by induction on the depth that is left. -/
private theorem converts_blockWithin (n : Nat) (first : String) (others : List String) :
    Converts (blockWithin n first others) := by
  induction n generalizing first others with
  | zero => exact converts_fail _ nofun
  | succ n ih =>
    refine (converts_enter.bind fun _ => converts_remaining.bind fun k => ?_).restoringDepth
    exact converts_statements (converts_statement ih) first others (k + 1) []

end Blocks

private theorem converts_parameters : Converts parameters := by
  have hitem : Converts parameter :=
    converts_identifier.bind fun name => converts_annotation.bind fun _ => converts_pure _
  exact (converts_sees ")").bind fun _ => .ite (converts_pure []) (converts_commaList hitem)

private theorem converts_method : Converts method := by
  refine (converts_expect "DEF").bind fun _ => converts_identifier.bind fun name => ?_
  refine (converts_expect "(").bind fun _ => converts_parameters.bind fun parameters => ?_
  refine (converts_expect ")").bind fun _ => converts_annotation.bind fun returnTypeName => ?_
  refine (converts_expect "DO").bind fun _ => (converts_blockWithin _ _ _).bind fun body => ?_
  exact (converts_expect "END").bind fun _ => converts_fresh.bind fun id => converts_pure _

/-- No literal of a program is refused. -/
theorem converts_source : Converts source := by
  refine (converts_manyAt "LET" converts_declaration).bind fun fields => ?_
  refine (converts_manyAt "DEF" converts_method).bind fun methods => ?_
  refine converts_peek.bind fun next => ?_
  cases next with
  | none => exact converts_pure _
  | some t => exact converts_fail _ nofun

/-- A token that is a literal is read as its value, whatever comes behind it. -/
theorem primary_eq_literal {t : Token} {v : Literal} (ht : Literal.ofToken? t = some v)
    (expression : Parse Expr) {c : Cursor} {rest : List Token} (hrest : c.rest = t :: rest) :
    primary expression c =
      .ok (.literal c.nextId v) { c.advance with nextId := c.nextId + 1 } := by
  simp only [primary, peek, advance, fresh, bind, EStateM.bind, hrest, List.head?_cons, ht,
    advance_nextId, pure, EStateM.pure]

end Parse

/-- Every literal token of a text that can be scanned denotes one value, and is read as that value
    wherever it comes next.  The quotes of a literal can be cut off by bytes, and no list of tokens
    from a scanned text is refused for a literal. -/
theorem literal_tokens_denote {source : String} {tokens : List Token}
    (h : lex source = .ok tokens) :
    (∀ t ∈ tokens, t.kind.IsLiteral →
      ∃ v, (∀ w, t.Denotes w ↔ w = v) ∧
        ∀ (expression : Parse Expr) (c : Cursor) (rest : List Token), c.rest = t :: rest →
          Parse.primary expression c =
            .ok (.literal c.nextId v) { c.advance with nextId := c.nextId + 1 }) ∧
    (∀ t ∈ tokens, t.kind = .character ∨ t.kind = .string →
      ∃ body, Literal.unquote? t.lexeme.toList = some body ∧
        IsSlice t.lexeme 1 (t.lexeme.utf8ByteSize - 1) (String.ofList body)) ∧
    ∀ e, parse tokens = .error e → e.fault ≠ .invalidLiteral := by
  have hwf := lex_wellFormed h
  refine ⟨?_, fun t ht hkind => (hwf t ht).isSlice hkind, ?_⟩
  · intro t ht hkind
    obtain ⟨v, hv⟩ := (hwf t ht).denotes hkind
    refine ⟨v, fun w => ⟨fun hw => ?_, fun hw => hw ▸ hv⟩, ?_⟩
    · -- Whatever is denoted is read, and only one value is.
      exact Option.some.inj (hw.ofToken?_eq.symm.trans hv.ofToken?_eq)
    · intro expression c rest hrest
      exact Parse.primary_eq_literal hv.ofToken?_eq expression hrest
  -- No rule raises the fault, so the whole parse does not.
  · intro e he
    have hsource := Parse.converts_source (Cursor.start tokens) hwf
    unfold parse at he
    cases hrun : Parse.source (Cursor.start tokens) with
    | ok s c => rw [hrun] at he; exact nomatch he
    | error e' c =>
      rw [hrun] at he
      obtain rfl : e' = e := Except.error.inj he
      exact hsource.of_error hrun

/-- In `"\\n\"é"` the first backslash escapes the second, so what follows is the letter `n` and no
    line feed; the quote behind it is escaped too, and the letter behind that has two bytes. -/
theorem backslashes_are_paired :
    ∃ t, lex "-07 \"\\\\n\\\"é\"" = .ok [⟨.integer, "-07", 0⟩, t] ∧
      IsSlice t.lexeme 1 8 "\\\\n\\\"é" ∧
      ∀ c : Cursor, c.rest = [t] → ∃ d, Parse.primary Parse.expression c =
        .ok (.literal c.nextId (.string "\\n\"é")) d := by
  let t : Token := ⟨.string, "\"\\\\n\\\"é\"", 4⟩
  have hlex : lex "-07 \"\\\\n\\\"é\"" = .ok [⟨.integer, "-07", 0⟩, t] := by decide +kernel
  obtain ⟨hread, hslice, -⟩ := literal_tokens_denote hlex
  have ht : t ∈ [⟨.integer, "-07", 0⟩, t] := by simp
  obtain ⟨v, hv, hprimary⟩ := hread t ht (.inr (.inr (.inr rfl)))
  obtain ⟨body, hbody, hbytes⟩ := hslice t ht (.inr rfl)
  -- The first two backslashes are one, so the letter behind them is not an escape.
  have hdenotes : t.Denotes (.string "\\n\"é") := by
    refine ⟨['\\', '\\', 'n', '\\', '"', 'é'], ['\\', 'n', '"', 'é'], by decide +kernel, ?_,
      by decide +kernel⟩
    refine .itself ?_ (.verbatim (by decide) (.itself ?_ (.verbatim (by decide) .nil)))
    all_goals simp [controlEscapes]
  obtain rfl := (hv _).mp hdenotes
  obtain rfl : ['\\', '\\', 'n', '\\', '"', 'é'] = body :=
    Option.some.inj ((by decide +kernel : _ = Literal.unquote? t.lexeme.toList).trans hbody)
  exact ⟨t, hlex, hbytes, fun c hc => ⟨_, hprimary _ c [] hc⟩⟩

end LetLang
