import LetLang.Token.Lexer
import LetLang.Proofs.Lexemes

/-! # What the scanner finds

The scanner takes the longest lexeme that starts where it stands.  A space ends every lexeme, so
lexemes with spaces between them are found again as they are; and whatever is found is a lexeme
of the kind that it is taken for.

* `lex_spaced`       lexemes with single spaces between them are found again, one by one
* `lex_wellFormed`   every token that is found has a lexeme of its kind -/

namespace LetLang

namespace Lexer

/-! ## Lexemes before a space -/

/-- No lexeme goes on here: the text ends, or there is a space. -/
def Spaced (rest : List Char) : Prop := rest = [] ∨ ∃ cs, rest = ' ' :: cs

/-- What ends at a blank is taken up to the blank. -/
private theorem takeWhile_spaced {p : Char → Bool} (hp : p ' ' = false) {cs rest : List Char}
    (hcs : ∀ c ∈ cs, p c = true) (hrest : Spaced rest) : (cs ++ rest).takeWhile p = cs := by
  rw [List.takeWhile_append_of_pos hcs]
  obtain rfl | ⟨r, rfl⟩ := hrest <;> simp [hp]

/-- The blank and what follows it are left. -/
private theorem dropWhile_spaced {p : Char → Bool} (hp : p ' ' = false) {cs rest : List Char}
    (hcs : ∀ c ∈ cs, p c = true) (hrest : Spaced rest) : (cs ++ rest).dropWhile p = rest := by
  rw [List.dropWhile_append_of_pos hcs]
  obtain rfl | ⟨r, rfl⟩ := hrest <;> simp [hp]

/-- Digits up to a blank are an integer. -/
private theorem number_integer {digits rest : List Char} (hd : ∀ c ∈ digits, c.isDigit = true)
    (hrest : Spaced rest) : number (digits ++ rest) = ⟨.integer, digits, rest⟩ := by
  simp only [number, takeWhile_spaced rfl hd hrest, dropWhile_spaced rfl hd hrest]
  obtain rfl | ⟨r, rfl⟩ := hrest <;> rfl

/-- With a dot and digits behind it they are a decimal. -/
private theorem number_decimal {whole fraction rest : List Char}
    (hw : ∀ c ∈ whole, c.isDigit = true)
    (hf : Numeral.isDigits fraction = true) (hrest : Spaced rest) :
    number (whole ++ '.' :: fraction ++ rest) = ⟨.decimal, whole ++ '.' :: fraction, rest⟩ := by
  obtain ⟨hne, hall⟩ := Numeral.isDigits_iff.mp hf
  obtain ⟨d, ds, rfl⟩ := List.exists_cons_of_ne_nil hne
  have hds : ∀ c ∈ ds, c.isDigit = true := fun c hc => hall c (List.mem_cons_of_mem d hc)
  rw [List.append_assoc]
  simp only [number, List.cons_append, List.takeWhile_append_of_pos hw,
    List.dropWhile_append_of_pos hw]
  simp [List.takeWhile_cons_of_neg, List.dropWhile_cons_of_neg,
    show Char.isDigit '.' = false by decide, hall d List.mem_cons_self,
    takeWhile_spaced rfl hds hrest, dropWhile_spaced rfl hds hrest]

/-- The escaped characters are those of the table. -/
private theorem isEscape_of_mem {e c : Char} (h : (e, c) ∈ escapes) : isEscape e = true := by
  simp only [escapes, List.mem_cons, Prod.mk.injEq, List.not_mem_nil, or_false] at h
  obtain ⟨rfl, -⟩ | ⟨rfl, -⟩ | ⟨rfl, -⟩ | ⟨rfl, -⟩ | ⟨rfl, -⟩ | ⟨rfl, -⟩ | ⟨rfl, -⟩ := h <;> rfl

/-- What a string is written with is passed, up to the quote that closes it. -/
theorem string_written {text units : List Char} (h : WrittenAll '"' text units) (offset : Nat)
    (rest : List Char) : string offset (units ++ '"' :: rest) = .ok (units ++ ['"'], rest) := by
  induction h generalizing offset with
  | nil =>
    unfold string
    rfl
  | cons hunit _ ih =>
    cases hunit with
    | plain hquote hslash hbreak =>
      unfold string
      simp [hquote, hslash, hbreak, ih, Except.map, prepend]
    -- A backslash takes its escape with it, so an escaped quote does not close the string.
    | escaped hmem =>
      unfold string
      simp [isEscape_of_mem hmem, isLineBreak, ih, Except.map, prepend]

/-- A character that is written in quotes is read back. -/
theorem character_written {c : Char} {unit : List Char} (h : Written '\'' c unit) (offset : Nat)
    (rest : List Char) :
    character offset (unit ++ '\'' :: rest) = .ok (unit ++ ['\''], rest) := by
  cases h with
  | plain hquote hslash hbreak =>
    simp [character, hquote, hslash, hbreak, closeCharacter, Except.map, prepend]
  | escaped hmem =>
    simp [character, isEscape_of_mem hmem, isLineBreak, closeCharacter, Except.map, prepend]

private theorem isDigit_start {c : Char} (h : c.isDigit = true) : isIdentifierStart c = false := by
  have hne : c ≠ '_' := by rintro rfl; exact absurd h (by decide)
  simp only [isIdentifierStart, Bool.or_eq_false_iff, beq_eq_false_iff_ne]
  refine ⟨?_, hne⟩
  unfold Char.isDigit at h
  unfold Char.isAlpha Char.isUpper Char.isLower
  simp only [ge_iff_le, Bool.and_eq_true, decide_eq_true_eq, Bool.or_eq_false_iff,
    Bool.and_eq_false_iff, decide_eq_false_iff_not, UInt32.le_iff_toNat_le] at h ⊢
  simp at h ⊢
  omega

/-- What starts a lexeme is no blank. -/
private theorem not_isBlank {c : Char}
    (h : isIdentifierStart c = true ∨ c.isDigit = true ∨ takesEquals c = true) :
    isBlank c = false := by
  rw [← Bool.not_eq_true]
  intro hblank
  simp only [isBlank, Bool.or_eq_true, beq_iff_eq] at hblank
  obtain (((rfl | rfl) | rfl) | rfl) | rfl := hblank <;> exact absurd h (by decide)

/-- A sign and digits start a number, whatever comes behind them. -/
theorem next_number {sign digits : List Char} (hs : IsSign sign)
    (hd : Numeral.isDigits digits = true) :
    ∃ c cs, sign ++ digits = c :: cs ∧ (∀ x ∈ cs, x.isDigit = true) ∧ isBlank c = false ∧
      ∀ offset rest, next offset c (cs ++ rest) = .ok (number (cs ++ rest)) := by
  obtain ⟨hne, hall⟩ := Numeral.isDigits_iff.mp hd
  obtain ⟨d, ds, rfl⟩ := List.exists_cons_of_ne_nil hne
  have hdigit := hall d List.mem_cons_self
  obtain rfl | rfl | rfl := hs
  · refine ⟨d, ds, rfl, fun x hx => hall x (List.mem_cons_of_mem d hx),
      not_isBlank (.inr (.inl hdigit)), fun offset rest => ?_⟩
    simp [next, isDigit_start hdigit, hdigit]
  -- A sign opens a number exactly if a digit follows.
  · refine ⟨'+', d :: ds, rfl, hall, rfl, fun offset rest => ?_⟩
    simp [next, isIdentifierStart, startsWithDigit, hdigit]
  · refine ⟨'-', d :: ds, rfl, hall, rfl, fun offset rest => ?_⟩
    simp [next, isIdentifierStart, startsWithDigit, hdigit]

/-- A lexeme before a space is found as it is. -/
theorem next_of_lexeme {kind : Token.Kind} {lexeme rest : List Char} (h : kind.Lexeme lexeme)
    (hrest : Spaced rest) (offset : Nat) :
    ∃ c cs, lexeme = c :: cs ∧ isBlank c = false ∧
      next offset c (cs ++ rest) = .ok ⟨kind, cs, rest⟩ := by
  cases h with
  | @identifier c cs hc hcs =>
    refine ⟨c, cs, rfl, not_isBlank (.inl hc), ?_⟩
    rw [next, if_pos hc, identifier, takeWhile_spaced rfl hcs hrest, dropWhile_spaced rfl hcs hrest]
  | integer hs hd =>
    -- A number starts with its sign or with a digit, and ends at the blank.
    obtain ⟨c, cs, hcs, hdigits, hblank, hnext⟩ := next_number hs hd
    exact ⟨c, cs, hcs, hblank, by rw [hnext, number_integer hdigits hrest]⟩
  | @decimal sign whole fraction hs hw hf =>
    obtain ⟨c, cs, hcs, hdigits, hblank, hnext⟩ := next_number hs hw
    refine ⟨c, cs ++ '.' :: fraction, by rw [← List.append_assoc, hcs]; rfl, hblank, ?_⟩
    rw [List.append_assoc, hnext, ← List.append_assoc, number_decimal hdigits hf hrest]
  | character hunit =>
    refine ⟨'\'', _, rfl, rfl, ?_⟩
    rw [List.append_assoc]
    simp [next, character_written hunit, Except.map, isIdentifierStart]
  | string hunits =>
    refine ⟨'"', _, rfl, rfl, ?_⟩
    rw [List.append_assoc]
    simp [next, string_written hunits, Except.map, isIdentifierStart]
  | @operator c hc =>
    -- An operator is a single character, and no other lexeme starts with it.
    have hstart := isOperatorChar_start hc
    simp only [isOperatorChar, Char.isAlphanum, Bool.and_eq_true, Bool.not_eq_true',
      Bool.or_eq_false_iff, bne_iff_ne] at hc
    obtain ⟨⟨⟨⟨hblank, -, hdigit⟩, -⟩, hstring⟩, hcharacter⟩ := hc
    refine ⟨c, [], rfl, hblank, ?_⟩
    obtain rfl | ⟨r, rfl⟩ := hrest <;>
      simp [next, hstart, hdigit, hstring, hcharacter, startsWithDigit, operator]
  | @comparison c hc =>
    refine ⟨c, ['='], rfl, not_isBlank (.inr (.inr hc)), ?_⟩
    simp only [takesEquals, Bool.or_eq_true, beq_iff_eq] at hc
    obtain ((rfl | rfl) | rfl) | rfl := hc <;> rfl

/-- A lexeme in front of a blank is one token. -/
theorem scan_lexeme {kind : Token.Kind} {lexeme rest : List Char} (h : kind.Lexeme lexeme)
    (hrest : Spaced rest) (offset : Nat) (done : List Token) :
    scan offset done (lexeme ++ rest) =
      scan (offset + byteLength lexeme) (⟨kind, String.ofList lexeme, offset⟩ :: done) rest := by
  obtain ⟨c, cs, rfl, hblank, hnext⟩ := next_of_lexeme h hrest offset
  rw [List.cons_append, scan, if_neg (by simp [hblank])]
  split
  · rename_i hnext'
    rw [hnext] at hnext'
    cases hnext'
  -- The lexeme is what the scan takes at this place.
  · rename_i x hnext'
    rw [hnext] at hnext'
    cases hnext'
    rfl

/-- A space is skipped. -/
private theorem scan_space (offset : Nat) (done : List Token) (cs : List Char) :
    scan offset done (' ' :: cs) = scan (offset + ' '.utf8Size) done cs := by
  rw [scan]
  exact if_pos rfl

/-- Lexemes with single spaces between them are found again, one by one. -/
private theorem scan_spaced (l : List (Token.Kind × List Char)) (hl : ∀ x ∈ l, x.1.Lexeme x.2)
    (offset : Nat) (done : List Token) :
    ∃ tokens, scan offset done (List.intercalate [' '] (l.map (·.2))) =
      .ok (done.reverse ++ tokens) ∧ tokens.map (fun t => (t.kind, t.lexeme.toList)) = l := by
  induction l generalizing offset done with
  | nil => exact ⟨[], by simp [scan], rfl⟩
  | cons x l ih =>
    have hx := hl x List.mem_cons_self
    have hmore := ih (fun y hy => hl y (List.mem_cons_of_mem x hy))
    let token : Token := ⟨x.1, String.ofList x.2, offset⟩
    cases l with
    | nil =>
      refine ⟨[token], ?_, by simp [token]⟩
      have hone := scan_lexeme hx (.inl rfl) offset done
      rw [List.append_nil] at hone
      simp [hone, scan, token]
    | cons y l =>
      -- A space is passed between this lexeme and the others.
      obtain ⟨tokens, hscan, htokens⟩ :=
        hmore (offset + byteLength x.2 + ' '.utf8Size) (token :: done)
      refine ⟨token :: tokens, ?_, by simp [token, htokens]⟩
      rw [List.map_cons, List.map_cons, List.intercalate_cons_cons, List.append_assoc,
        List.singleton_append, scan_lexeme hx (.inr ⟨_, rfl⟩), scan_space, ← List.map_cons, hscan]
      simp

/-! ## Lexemes that are found -/

/-- What was read before stands in front. -/
private theorem map_prepend_eq_ok {x : Except LexError (List Char × List Char)}
    {done l r : List Char}
    (h : x.map (prepend done) = .ok (l, r)) : ∃ l', x = .ok (l', r) ∧ l = done ++ l' := by
  cases x with
  | error => cases h
  | ok p =>
    cases h
    exact ⟨p.1, rfl, rfl⟩

/-- Every escape is in the table. -/
private theorem mem_escapes_of_isEscape {e : Char} (h : isEscape e = true) :
    ∃ c, (e, c) ∈ escapes := by
  simp only [isEscape, Bool.or_eq_true, beq_iff_eq] at h
  obtain (((((rfl | rfl) | rfl) | rfl) | rfl) | rfl) | rfl := h <;>
    exact ⟨_, by simp [escapes]; rfl⟩

/-- What is read as a string is written character by character. -/
theorem written_of_string {offset : Nat} {cs l r : List Char} (h : string offset cs = .ok (l, r)) :
    ∃ text units, WrittenAll '"' text units ∧ l = units ++ ['"'] := by
  fun_induction string offset cs generalizing l r with
  | case1 => cases h
  | case2 =>
    cases h
    exact ⟨[], [], .nil, rfl⟩
  | case3 => cases h
  | case4 => cases h
  | case5 offset e cs hescape hquote hbreak ih =>
    obtain ⟨l', hl', rfl⟩ := map_prepend_eq_ok h
    obtain ⟨text, units, hunits, rfl⟩ := ih hl'
    -- The escape stands for a character of the text.
    obtain ⟨c, hc⟩ := mem_escapes_of_isEscape hescape
    exact ⟨c :: text, _, .cons (.escaped hc) hunits, rfl⟩
  | case6 => cases h
  | case7 offset c cs hquote hbreak hslash ih =>
    obtain ⟨l', hl', rfl⟩ := map_prepend_eq_ok h
    obtain ⟨text, units, hunits, rfl⟩ := ih hl'
    exact ⟨c :: text, _, .cons (.plain hquote hslash (by simpa using hbreak)) hunits, rfl⟩

/-- What is read as a character is written as one. -/
theorem written_of_character {offset : Nat} {cs l r : List Char}
    (h : character offset cs = .ok (l, r)) :
    ∃ c unit, Written '\'' c unit ∧ l = unit ++ ['\''] := by
  -- A closed character ends with its quote.
  have hclose : ∀ {offset : Nat} {cs l r : List Char},
      closeCharacter offset cs = .ok (l, r) → l = ['\''] := by
    intro offset cs l r h
    unfold closeCharacter at h
    split at h <;> cases h
    rfl
  unfold character at h
  split at h
  · cases h
  rename_i c cs
  split at h
  · cases h
  rename_i hquote
  split at h
  · cases h
  rename_i hbreak
  split at h
  · split at h
    · cases h
    split at h
    -- An escape that is read is one of the table.
    · rename_i e cs hescape
      obtain ⟨l', hl', rfl⟩ := map_prepend_eq_ok h
      obtain ⟨c', hc'⟩ := mem_escapes_of_isEscape hescape
      rw [hclose hl']
      subst c
      exact ⟨c', _, .escaped hc', rfl⟩
    · cases h
  · rename_i hslash
    obtain ⟨l', hl', rfl⟩ := map_prepend_eq_ok h
    rw [hclose hl']
    exact ⟨c, _, .plain hquote hslash (by simpa using hbreak), rfl⟩

/-- Behind its first character, a number has digits, and then maybe a point and more digits. -/
theorem number_cases (cs : List Char) :
    (number cs).kind = .integer ∧ (number cs).tail = cs.takeWhile Char.isDigit ∨
      ∃ fraction, Numeral.isDigits fraction = true ∧ (number cs).kind = .decimal ∧
        (number cs).tail = cs.takeWhile Char.isDigit ++ '.' :: fraction := by
  unfold number
  split
  · rename_i d rest _
    -- The point belongs to the number only if a digit stands behind it.
    split
    · rename_i hd
      refine .inr ⟨_, ?_, rfl, rfl⟩
      simp [Numeral.isDigits, hd]
    · exact .inl ⟨rfl, rfl⟩
  · exact .inl ⟨rfl, rfl⟩

/-- A number starts with a digit, or with a sign before a digit. -/
private theorem digits_of_start {c : Char} {cs : List Char}
    (h : (c.isDigit || ((c == '+' || c == '-') && startsWithDigit cs)) = true) :
    ∃ sign digits, IsSign sign ∧ Numeral.isDigits digits = true ∧
      c :: cs.takeWhile Char.isDigit = sign ++ digits := by
  simp only [Bool.or_eq_true, Bool.and_eq_true, beq_iff_eq] at h
  obtain hdigit | ⟨hsign, hdigit⟩ := h
  · exact ⟨[], _, .inl rfl, by simp [Numeral.isDigits, hdigit], rfl⟩
  · have hdigits : Numeral.isDigits (cs.takeWhile Char.isDigit) = true := by
      cases cs with
      | nil => exact absurd hdigit Bool.false_ne_true
      | cons d ds => simp [Numeral.isDigits, show d.isDigit = true from hdigit]
    -- A sign starts a number only where a digit follows it.
    refine ⟨[c], _, .inr ?_, hdigits, rfl⟩
    obtain rfl | rfl := hsign
    · exact .inl rfl
    · exact .inr rfl

/-- Whatever is found is a lexeme of the kind that it is taken for. -/
theorem lexeme_of_next {offset : Nat} {c : Char} {cs : List Char} {x : Lexeme}
    (hblank : isBlank c = false) (h : next offset c cs = .ok x) : x.kind.Lexeme (c :: x.tail) := by
  unfold next at h
  split at h
  · rename_i hstart
    cases h
    exact .identifier hstart (List.all_eq_true.mp List.all_takeWhile)
  rename_i hstart
  split at h
  · rename_i hnumber
    cases h
    obtain ⟨sign, digits, hs, hd, heq⟩ := digits_of_start hnumber
    obtain ⟨hkind, htail⟩ | ⟨fraction, hf, hkind, htail⟩ := number_cases cs
    · rw [hkind, htail, heq]
      exact .integer hs hd
    · rw [hkind, htail, ← List.cons_append, heq, List.append_assoc]
      exact .decimal hs hd hf
  rename_i hnumber
  split at h
  · rename_i hquote
    subst hquote
    cases hs : string (offset + 1) cs with
    | error => simp [hs, Except.map] at h
    | ok p =>
      simp only [hs, Except.map, Except.ok.injEq] at h
      subst h
      obtain ⟨text, units, hunits, hp⟩ := written_of_string hs
      rw [hp]
      exact .string hunits
  rename_i hstring
  split at h
  · rename_i hquote
    subst hquote
    cases hs : character (offset + 1) cs with
    | error => simp [hs, Except.map] at h
    | ok p =>
      simp only [hs, Except.map, Except.ok.injEq] at h
      subst h
      obtain ⟨c, unit, hunit, hp⟩ := written_of_character hs
      rw [hp]
      exact .character hunit
  rename_i hcharacter
  cases h
  -- What is left over is an operator, of one or two characters.
  have hoperator : isOperatorChar c = true := by
    simp only [isIdentifierStart, Bool.not_eq_true, Bool.or_eq_false_iff, beq_eq_false_iff_ne]
      at hstart hnumber
    simp [isOperatorChar, Char.isAlphanum, hblank, hstart.1, hstart.2, hnumber.1, hstring,
      hcharacter]
  unfold operator
  split
  · split
    · rename_i hequals
      exact .comparison hequals
    · exact .operator hoperator
  · exact .operator hoperator

/-- Every token that the lexer makes is a lexeme of its kind. -/
private theorem wellFormed_scan {offset : Nat} {done : List Token} {cs : List Char}
    {tokens : List Token}
    (hdone : ∀ t ∈ done, t.WellFormed) (h : scan offset done cs = .ok tokens) :
    ∀ t ∈ tokens, t.WellFormed := by
  fun_induction scan offset done cs with
  | case1 =>
    cases h
    simpa using hdone
  | case2 offset done c cs hblank ih => exact ih hdone h
  | case3 => cases h
  | case4 offset done c cs hblank x hnext _ token ih =>
    refine ih ?_ h
    intro t ht
    obtain rfl | ht := List.mem_cons.mp ht
    · have := lexeme_of_next (by simpa using hblank) hnext
      -- The new token is the lexeme that was read.
      simpa [Token.WellFormed, token] using this
    · exact hdone t ht

end Lexer

/-- Lexemes with single spaces between them are found again, one by one. -/
theorem lex_spaced (l : List (Token.Kind × List Char)) (hl : ∀ x ∈ l, x.1.Lexeme x.2) :
    ∃ tokens, lex (String.ofList (List.intercalate [' '] (l.map (·.2)))) = .ok tokens ∧
      tokens.map (fun t => (t.kind, t.lexeme.toList)) = l := by
  simpa [lex] using Lexer.scan_spaced l hl 0 []

/-- Every token that is found has a lexeme of its kind. -/
theorem lex_wellFormed {source : String} {tokens : List Token} (h : lex source = .ok tokens) :
    ∀ t ∈ tokens, t.WellFormed :=
  Lexer.wellFormed_scan (by simp) h

end LetLang
