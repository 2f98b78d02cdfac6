import LetLang.Proofs.ParserCompleteness
import LetLang.Proofs.Scanning

/-! # Programs as text

`Source.print` writes a program down by the grammar, with one space between two tokens.  Scanning
and parsing the text gives the program back, up to the numbers of its nodes, unless it nests too
far.

* `Literal.spelled_spelling`   every value can be written so that it is read back
* `lex_print`                  the tokens of the text are those for the terminals of the program
* `parse_print`                and the program of these tokens is the one that was printed -/

namespace LetLang

/-! ## Literals -/

/-- A character as it stands between quotes: escaped, if there is an escape for it. -/
def escapedChar (c : Char) : List Char :=
  match escapes.find? fun p => p.2 == c with
  | some (e, _) => ['\\', e]
  | none => [c]

/-- Every character is written in some way. -/
private theorem written_escapedChar {quote : Char} (hquote : (quote, quote) ∈ escapes) (c : Char) :
    Written quote c (escapedChar c) := by
  unfold escapedChar
  split
  · rename_i e c' hfind
    have hc' : c' = c := by simpa using List.find?_some hfind
    subst hc'
    exact .escaped (List.mem_of_find?_eq_some hfind)
  · -- A character that has no escape is neither the quote nor a backslash nor a line break.
    rename_i hfind
    rw [List.find?_eq_none] at hfind
    have hne : ∀ e x, (e, x) ∈ escapes → c ≠ x := by
      rintro e x hmem rfl
      exact hfind _ hmem (by simp)
    refine .plain (hne _ _ hquote) (hne '\\' '\\' (by simp [escapes])) ?_
    simp [isLineBreak, hne 'n' '\n' (by simp [escapes]), hne 'r' '\r' (by simp [escapes])]

/-- Every text is written character by character. -/
private theorem writtenAll_flatMap {quote : Char} (hquote : (quote, quote) ∈ escapes)
    (cs : List Char) :
    WrittenAll quote cs (cs.flatMap escapedChar) := by
  induction cs with
  | nil => exact .nil
  | cons c cs ih => exact .cons (written_escapedChar hquote c) ih

/-- The sign in front of the digits of a number. -/
def signOf (n : Int) : List Char := if n < 0 then ['-'] else []

/-- The sign of an integer is a sign. -/
private theorem isSign_signOf (n : Int) : IsSign (signOf n) := by
  unfold signOf
  split
  · exact .inr (.inr rfl)
  · exact .inl rfl

/-- Sign and digits give the integer back. -/
private theorem signed_signOf (n : Int) : Numeral.signed (signOf n = ['-']) n.natAbs = n := by
  unfold signOf Numeral.signed
  by_cases h : n < 0
  · rw [if_pos h, if_pos (by simp)]
    omega
  · rw [if_neg h, if_neg (by simp)]
    omega

namespace Numeral

/-- The digits of a number are digits. -/
private theorem isDigits_digits (n : Nat) : isDigits (digits n) = true := by
  rw [isDigits_iff]
  exact ⟨List.ne_nil_of_length_pos (length_digits_pos n),
    fun c hc => Nat.isDigit_of_mem_toDigits (by decide) (by decide) hc⟩

/-- An integer is spelled by its sign and its digits. -/
private theorem spell_eq (n : Int) : spell n = signOf n ++ digits n.natAbs := by
  unfold spell signOf
  split <;> rfl

/-- Zeros in front change nothing. -/
private theorem ofDigits_zeros (k : Nat) (cs : List Char) :
    ofDigits (List.replicate k '0' ++ cs) = ofDigits cs := by
  simp [ofDigits, Nat.ofDigitChars_append, Nat.ofDigitChars_replicate_zero]

end Numeral

/-- Digits with a point among them are digits, the point, and as many digits as asked for. -/
private theorem Decimal.pointed_cases (n places : Nat) (hplaces : 0 < places) :
    ∃ whole fraction, pointed (Numeral.digits n) places = whole ++ '.' :: fraction ∧
      Numeral.isDigits whole = true ∧ Numeral.isDigits fraction = true ∧
      fraction.length = places ∧ Numeral.ofDigits (whole ++ fraction) = n := by
  -- With the zeros in front there are more digits than places, and they spell the same number.
  generalize hpadded : List.replicate (places + 1 - (Numeral.digits n).length) '0' ++
    Numeral.digits n = padded
  have hlength : places < padded.length := by
    rw [← hpadded, List.length_append, List.length_replicate]
    omega
  have hdigits : ∀ c ∈ padded, c.isDigit = true := by
    intro c hc
    rw [← hpadded, List.mem_append] at hc
    obtain hc | hc := hc
    · rw [List.eq_of_mem_replicate hc]
      rfl
    · exact (Numeral.isDigits_iff.mp (Numeral.isDigits_digits n)).2 c hc
  refine ⟨padded.take (padded.length - places), padded.drop (padded.length - places), ?_, ?_, ?_,
    ?_, ?_⟩
  · rw [pointed, hpadded]
  · rw [Numeral.isDigits_iff]
    refine ⟨List.ne_nil_of_length_pos ?_, fun c hc => hdigits c (List.mem_of_mem_take hc)⟩
    rw [List.length_take]
    omega
  · rw [Numeral.isDigits_iff]
    refine ⟨List.ne_nil_of_length_pos ?_, fun c hc => hdigits c (List.mem_of_mem_drop hc)⟩
    rw [List.length_drop]
    omega
  · rw [List.length_drop]
    omega
  · rw [List.take_append_drop, ← hpadded, Numeral.ofDigits_zeros, Numeral.ofDigits_digits]

/-- How a value is written. -/
def Literal.spelling : Literal → Token.Kind × List Char
  | .nil => (.identifier, "NIL".toList)
  | .boolean true => (.identifier, "TRUE".toList)
  | .boolean false => (.identifier, "FALSE".toList)
  | .integer n => (.integer, Numeral.spell n)
  | .decimal d =>
    (.decimal, signOf d.unscaled ++
      Decimal.pointed (Numeral.digits d.unscaled.natAbs) d.scale.toNat)
  | .character c => (.character, '\'' :: (escapedChar c ++ ['\'']))
  | .string s => (.string, '"' :: (s.toList.flatMap escapedChar ++ ['"']))

/-- What is written is read back as the value, which for a decimal needs a place behind the
    point. -/
theorem Literal.spelled_spelling {v : Literal} (hw : (Terminal.literal v).Writable) :
    v.Spelled v.spelling.1 v.spelling.2 := by
  cases v with
  | nil => exact .nil
  | boolean b => cases b <;> constructor
  | character c => exact .character (written_escapedChar (by simp [escapes]) c)
  | string s => exact .string (writtenAll_flatMap (by simp [escapes]) s.toList)
  | integer n =>
    have h := Spelled.integer (isSign_signOf n) (Numeral.isDigits_digits n.natAbs)
    rwa [Numeral.ofDigits_digits, signed_signOf, ← Numeral.spell_eq] at h
  | decimal d =>
    have hscale : 1 ≤ d.scale := hw
    -- A decimal with a positive scale has digits on both sides of its point.
    obtain ⟨whole, fraction, hpointed, hwhole, hfraction, hlength, hvalue⟩ :=
      Decimal.pointed_cases d.unscaled.natAbs d.scale.toNat (by omega)
    have h := Spelled.decimal (isSign_signOf d.unscaled) hwhole hfraction
    rw [hvalue, signed_signOf, ← hpointed, hlength, Int.toNat_of_nonneg (by omega)] at h
    exact h

/-- A spelled literal is a lexeme of its kind. -/
theorem Literal.Spelled.lexeme {v : Literal} {kind : Token.Kind} {cs : List Char}
    (h : v.Spelled kind cs) : kind.Lexeme cs := by
  cases h with
  | nil => exact .identifier rfl (List.all_eq_true.mp rfl)
  | true => exact .identifier rfl (List.all_eq_true.mp rfl)
  | false => exact .identifier rfl (List.all_eq_true.mp rfl)
  | integer hs hd => exact .integer hs hd
  | decimal hs hw hf => exact .decimal hs hw hf
  | character hunit => exact .character hunit
  | string hunits => exact .string hunits

/-! ## Terminals -/

/-- How a terminal is written. -/
def Terminal.spelling : Terminal → Token.Kind × List Char
  | keyword w => (.identifier, w.toList)
  | name n => (.identifier, n.toList)
  | sign s => (.operator, s.toList)
  | literal v => v.spelling

/-- The signs of the grammar. -/
def signs : List String :=
  ["(", ")", ",", ".", ":", ";", "=", "<", "<=", ">", ">=", "==", "!=", "+", "-", "*", "/"]

/-- Whether the terminal is a word or a sign of the grammar, if it is a word or a sign at all. -/
def Terminal.isKnown : Terminal → Bool
  | keyword w => reserved.contains w
  | sign s => signs.contains s
  | _ => true

/-- A token with the spelling of a terminal matches it. -/
private theorem Terminal.Writable.matches_spelling {y : Terminal} (hw : y.Writable) {t : Token}
    (ht : y.spelling = (t.kind, t.lexeme.toList)) : y.Matches t := by
  cases y with
  | literal v =>
    have h := Literal.spelled_spelling hw
    rwa [show v.spelling = (t.kind, t.lexeme.toList) from ht] at h
  | _ =>
    simp only [Terminal.spelling, Prod.mk.injEq, String.toList_inj] at ht
    exact ⟨ht.1.symm, ht.2.symm⟩

/-- Reserved words are lexemes. -/
private theorem lexeme_of_mem_reserved {w : String} (h : w ∈ reserved) :
    Token.Kind.identifier.Lexeme w.toList := by
  simp only [reserved, List.mem_cons, List.not_mem_nil, or_false] at h
  obtain rfl | rfl | rfl | rfl | rfl | rfl | rfl | rfl | rfl | rfl | rfl | rfl | rfl | rfl | rfl :=
    h <;> exact .identifier rfl (List.all_eq_true.mp rfl)

/-- Signs are lexemes. -/
private theorem lexeme_of_mem_signs {s : String} (h : s ∈ signs) :
    Token.Kind.operator.Lexeme s.toList := by
  simp only [signs, List.mem_cons, List.not_mem_nil, or_false] at h
  obtain rfl | rfl | rfl | rfl | rfl | rfl | rfl | rfl | rfl | rfl | rfl | rfl | rfl | rfl | rfl |
    rfl | rfl := h <;> first | exact .operator rfl | exact .comparison rfl

/-- A terminal that can be written is spelled by a lexeme. -/
theorem Terminal.Writable.lexeme {y : Terminal} (hw : y.Writable) (hknown : y.isKnown = true) :
    y.spelling.1.Lexeme y.spelling.2 := by
  cases y with
  | keyword w => exact lexeme_of_mem_reserved (by simpa [isKnown] using hknown)
  | name n => exact hw.1
  | sign s => exact lexeme_of_mem_signs (by simpa [isKnown] using hknown)
  | literal v => exact (Literal.spelled_spelling hw).lexeme

/-! ## Programs -/

mutual

/-- The terminals of a statement, with `ELSE` only before statements. -/
def Statement.terminals : Statement → List Terminal
  | .expression e => e.terminals ++ [.sign ";"]
  | .declare d => d.terminals
  | .assign target value =>
    target.terminals ++ .sign "=" :: (value.terminals ++ [.sign ";"])
  | .ifElse condition thenBody elseBody =>
    .keyword "IF" :: (condition.terminals ++ .keyword "DO" :: (Statement.listTerminals thenBody ++
      ((if elseBody.isEmpty then [] else .keyword "ELSE" :: Statement.listTerminals elseBody) ++
        [.keyword "END"])))
  | .forIn name iterable body =>
    .keyword "FOR" :: .name name :: .keyword "IN" :: (iterable.terminals ++
      .keyword "DO" :: (Statement.listTerminals body ++ [.keyword "END"]))
  | .whileDo condition body =>
    .keyword "WHILE" :: (condition.terminals ++
      .keyword "DO" :: (Statement.listTerminals body ++ [.keyword "END"]))
  | .returns e => .keyword "RETURN" :: (e.terminals ++ [.sign ";"])

/-- The terminals of statements. -/
def Statement.listTerminals : List Statement → List Terminal
  | [] => []
  | s :: rest => s.terminals ++ Statement.listTerminals rest

end

/-- The terminals of a method. -/
def Method.terminals (m : Method) : List Terminal :=
  .keyword "DEF" :: .name m.name :: .sign "(" ::
    (separated Parameter.terminals m.parameters ++ .sign ")" ::
      (annotationTerminals m.returnTypeName ++
        .keyword "DO" :: (Statement.listTerminals m.body ++ [.keyword "END"])))

/-- The terminals of a program. -/
def Source.terminals (s : Source) : List Terminal :=
  s.fields.flatMap Declaration.terminals ++ s.methods.flatMap Method.terminals

mutual

/-- The printed statement is one of its yields. -/
theorem Statement.yields_terminals : (s : Statement) → s.Yields s.terminals
  | .expression _ => .expression
  | .declare _ => .declare
  | .assign _ _ => .assign
  | .ifElse condition thenBody elseBody => by
    -- An empty `ELSE` is not printed.
    have helse : Statement.YieldsElse elseBody
        (if elseBody.isEmpty then [] else .keyword "ELSE" :: Statement.listTerminals elseBody) := by
      split
      · rename_i hempty
        rw [List.isEmpty_iff.mp hempty]
        exact .absent
      · exact .present (Statement.yields_listTerminals elseBody)
    exact .ifElse (Statement.yields_listTerminals thenBody) helse
  | .forIn _ _ body => .forIn (Statement.yields_listTerminals body)
  | .whileDo _ body => .whileDo (Statement.yields_listTerminals body)
  | .returns _ => .returns

private theorem Statement.yields_listTerminals :
    (body : List Statement) → Statement.YieldsAll body (Statement.listTerminals body)
  | [] => .nil
  | s :: rest => .cons s.yields_terminals (Statement.yields_listTerminals rest)

end

/-- The printed program is one of its yields. -/
theorem Source.yields_terminals (s : Source) : s.Yields s.terminals := by
  have hmethods : List.Forall₂ Method.Yields s.methods (s.methods.map Method.terminals) := by
    rw [List.forall₂_map_right_iff, List.forall₂_same]
    exact fun m _ => .intro (Statement.yields_listTerminals m.body)
  exact .intro hmethods

private theorem Operator.known_terminal (o : Operator) : o.terminal.isKnown = true := by
  cases o <;> rfl

mutual

/-- Printed expressions are made of words and signs of the grammar, names and literals. -/
private theorem Expr.known_terminals : (e : Expr) → e.terminals.all Terminal.isKnown = true
  | .literal _ _ => rfl
  | .group _ inner => by
    simp [Expr.terminals, Expr.known_terminals inner, Terminal.isKnown, signs]
  | .binary _ o left right => by
    simp [Expr.terminals, Expr.known_terminals left, o.known_terminal, Expr.known_terminals right]
  | .var _ _ => rfl
  | .field _ receiver _ => by
    simp [Expr.terminals, Expr.known_terminals receiver, Terminal.isKnown, signs]
  | .call _ _ items => by
    simp [Expr.terminals, Expr.known_listTerminals items, Terminal.isKnown, signs]
  | .invoke _ receiver _ items => by
    simp [Expr.terminals, Expr.known_terminals receiver, Expr.known_listTerminals items,
      Terminal.isKnown, signs]

private theorem Expr.known_listTerminals :
    (items : List Expr) → (Expr.listTerminals items).all Terminal.isKnown = true
  | [] => rfl
  | e :: rest => by
    simp [Expr.listTerminals, Expr.known_terminals e, Expr.known_moreTerminals rest]

private theorem Expr.known_moreTerminals :
    (items : List Expr) → (Expr.moreTerminals items).all Terminal.isKnown = true
  | [] => rfl
  | e :: rest => by
    simp [Expr.moreTerminals, Expr.known_terminals e, Expr.known_moreTerminals rest,
      Terminal.isKnown, signs]

end

private theorem known_annotationTerminals (type : Option String) :
    (annotationTerminals type).all Terminal.isKnown = true := by
  cases type <;> rfl

private theorem Declaration.known_terminals (d : Declaration) :
    d.terminals.all Terminal.isKnown = true := by
  have hinitial : (initialTerminals d.initializer).all Terminal.isKnown = true := by
    cases d.initializer with
    | none => rfl
    | some e => simp [initialTerminals, e.known_terminals, Terminal.isKnown, signs]
  simp [Declaration.terminals, known_annotationTerminals, hinitial, Terminal.isKnown, signs,
    reserved]

mutual

/-- Printed statements are made of words and signs of the grammar, names and literals. -/
private theorem Statement.known_terminals :
    (s : Statement) → s.terminals.all Terminal.isKnown = true
  | .expression e => by simp [Statement.terminals, e.known_terminals, Terminal.isKnown, signs]
  | .declare d => d.known_terminals
  | .assign target value => by
    simp [Statement.terminals, target.known_terminals, value.known_terminals, Terminal.isKnown,
      signs]
  | .ifElse condition thenBody elseBody => by
    -- Printed or not, the `ELSE` adds nothing unknown.
    have helse : (if elseBody.isEmpty then [] else
        .keyword "ELSE" :: Statement.listTerminals elseBody).all Terminal.isKnown = true := by
      split
      · rfl
      · simp [Statement.known_listTerminals elseBody, Terminal.isKnown, reserved]
    simp only [Statement.terminals, List.all_cons, List.all_append, condition.known_terminals,
      Statement.known_listTerminals thenBody, helse]
    rfl
  | .forIn _ iterable body => by
    simp [Statement.terminals, iterable.known_terminals, Statement.known_listTerminals body,
      Terminal.isKnown, reserved]
  | .whileDo condition body => by
    simp [Statement.terminals, condition.known_terminals, Statement.known_listTerminals body,
      Terminal.isKnown, reserved]
  | .returns e => by
    simp [Statement.terminals, e.known_terminals, Terminal.isKnown, signs, reserved]

private theorem Statement.known_listTerminals :
    (body : List Statement) → (Statement.listTerminals body).all Terminal.isKnown = true
  | [] => rfl
  | s :: rest => by
    simp [Statement.listTerminals, s.known_terminals, Statement.known_listTerminals rest]

end

/-- Printed methods are made of words and signs of the grammar, names and literals. -/
private theorem Method.known_terminals (m : Method) : m.terminals.all Terminal.isKnown = true := by
  have hparameters : ∀ l : List Parameter,
      (separated Parameter.terminals l).all Terminal.isKnown = true := by
    have hone : ∀ p : Parameter, p.terminals.all Terminal.isKnown = true := by
      intro p
      simp [Parameter.terminals, known_annotationTerminals, Terminal.isKnown]
    intro l
    cases l with
    | nil => rfl
    | cons p more =>
      simp [separated, hone, List.all_flatMap, Terminal.isKnown, signs]
  simp only [Method.terminals, List.all_cons, List.all_append, hparameters,
    known_annotationTerminals, Statement.known_listTerminals]
  rfl

/-- All words and signs that a program is written with are known. -/
private theorem Source.known_terminals (s : Source) : ∀ y ∈ s.terminals, y.isKnown = true := by
  rw [← List.all_eq_true]
  simp [Source.terminals, List.all_flatMap, Declaration.known_terminals, Method.known_terminals]

/-- The program as text, with one space between two tokens. -/
def Source.print (s : Source) : String :=
  String.ofList (List.intercalate [' '] (s.terminals.map fun y => y.spelling.2))

/-- The text of a program is scanned as tokens for its terminals. -/
theorem lex_print (s : Source) (hw : ∀ y ∈ s.terminals, y.Writable) :
    ∃ tokens, lex s.print = .ok tokens ∧
      List.Forall₂ Terminal.Matches s.terminals tokens := by
  have hlexemes : ∀ x ∈ s.terminals.map Terminal.spelling, x.1.Lexeme x.2 := by
    simp only [List.mem_map, forall_exists_index, and_imp, forall_apply_eq_imp_iff₂]
    exact fun y hy => (hw y hy).lexeme (s.known_terminals y hy)
  obtain ⟨tokens, hlex, htokens⟩ := lex_spaced _ hlexemes
  refine ⟨tokens, by rw [← hlex, Source.print, List.map_map]; rfl, ?_⟩
  -- Terminal by terminal, the token has the kind and the text of the spelling.
  have hspelled : List.Forall₂ (fun y t => y.spelling = (t.kind, t.lexeme.toList)) s.terminals
      tokens := by
    rw [← List.forall₂_map_right_iff, ← List.forall₂_map_left_iff, List.forall₂_eq_eq_eq, htokens]
  refine ((List.forall₂_and_left _ _).mpr ⟨hw, hspelled⟩).imp ?_
  rintro y t ⟨hy, ht⟩
  exact hy.matches_spelling ht

/-- The terminals can be written if the names are identifiers and no words of the grammar and the
    decimals have a digit behind their points. -/
private theorem writable_of_names {ys : List Terminal}
    (hnames : ∀ n, .name n ∈ ys → Token.Kind.identifier.Lexeme n.toList ∧ n ∉ reserved)
    (hdecimals : ∀ d, .literal (.decimal d) ∈ ys → 1 ≤ d.scale) : ∀ y ∈ ys, y.Writable := by
  intro y hy
  cases y with
  | keyword w => trivial
  | sign s => trivial
  | name n => exact hnames n hy
  | literal v =>
    cases v with
    | decimal d => exact hdecimals d hy
    | _ => trivial

/-- Parsing inverts printing, up to the numbers of nodes, for the programs that do not nest too
    far; the others are refused for just that reason. -/
theorem parse_print (s : Source)
    (hnames : ∀ n, .name n ∈ s.terminals → Token.Kind.identifier.Lexeme n.toList ∧ n ∉ reserved)
    (hdecimals : ∀ d, .literal (.decimal d) ∈ s.terminals → 1 ≤ d.scale)
    (hnormal : ∀ e ∈ s.exprs, e.isNormal = true) :
    ∃ tokens, lex s.print = .ok tokens ∧
      (s.cost ≤ maxNesting → ∃ s', parse tokens = .ok s' ∧ s'.unnumbered = s.unnumbered) ∧
      (maxNesting < s.cost → ∃ offset, parse tokens = .error ⟨offset, .tooDeep⟩) := by
  have hw := writable_of_names hnames hdecimals
  obtain ⟨tokens, hlex, htokens⟩ := lex_print s hw
  exact ⟨tokens, hlex, parse_of_yields s.yields_terminals hnormal hw htokens⟩

/-- `DEF f ( ) DO IF a . b DO RETURN "\n" ; END a = 1.50 * ( -2 + x ) ; END`. -/
def sampler : Source :=
  ⟨[], [⟨0, "f", [], none,
    [.ifElse (.field 0 (.var 0 "a") "b") [.returns (.literal 0 (.string "\n"))] [],
      .assign (.var 0 "a") (.binary 0 .times (.literal 0 (.decimal ⟨150, 2⟩))
        (.group 0 (.binary 0 .plus (.literal 0 (.integer (-2))) (.var 0 "x"))))]⟩]⟩

/-- Its text is read back as the program. -/
theorem parse_print_sampler :
    ∃ tokens, lex sampler.print = .ok tokens ∧
      ∃ s', parse tokens = .ok s' ∧ s'.unnumbered = sampler.unnumbered := by
  -- The names and the decimals of the program are read off its terminals.
  have hterminals : sampler.terminals =
      [.keyword "DEF", .name "f", .sign "(", .sign ")", .keyword "DO", .keyword "IF", .name "a",
        .sign ".", .name "b", .keyword "DO", .keyword "RETURN", .literal (.string "\n"), .sign ";",
        .keyword "END", .name "a", .sign "=", .literal (.decimal ⟨150, 2⟩), .sign "*", .sign "(",
        .literal (.integer (-2)), .sign "+", .name "x", .sign ")", .sign ";", .keyword "END"] := rfl
  have hnames : ∀ n, .name n ∈ sampler.terminals →
      Token.Kind.identifier.Lexeme n.toList ∧ n ∉ reserved := by
    intro n hn
    simp only [hterminals, List.mem_cons, Terminal.name.injEq, reduceCtorEq, false_or,
      List.not_mem_nil, or_false] at hn
    obtain rfl | rfl | rfl | rfl | rfl := hn <;>
      exact ⟨.identifier rfl (List.all_eq_true.mp rfl), by simp [reserved]⟩
  have hdecimals : ∀ d, .literal (.decimal d) ∈ sampler.terminals → 1 ≤ d.scale := by
    intro d hd
    simp only [hterminals, List.mem_cons, Terminal.literal.injEq, Literal.decimal.injEq,
      reduceCtorEq, false_or, List.not_mem_nil, or_false] at hd
    subst hd
    decide
  have hnormal : ∀ e ∈ sampler.exprs, e.isNormal = true := List.all_eq_true.mp rfl
  obtain ⟨tokens, hlex, hparse, -⟩ := parse_print sampler hnames hdecimals hnormal
  exact ⟨tokens, hlex, hparse (by decide)⟩

end LetLang
