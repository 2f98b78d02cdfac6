import LetLang.Literal
import Mathlib.Data.List.TakeDrop

/-! # The lexemes of each kind

`Token.Kind.Lexeme` says which texts are lexemes of a kind, and `Literal.Spelled` which value
the lexeme of a literal stands for.  Neither looks at how texts are scanned or read.

* `Literal.Spelled.ofToken?_eq`    a token that spells a value is read as that value
* `Token.WellFormed.spelled`       and a token is read only as a value that it spells
-/

namespace LetLang

/-! ## Parts of lexemes -/

/-- What may stand in front of the digits of a number. -/
def IsSign (cs : List Char) : Prop := cs = [] ∨ cs = ['+'] ∨ cs = ['-']

/-- The characters that may follow a backslash in a literal, with what they stand for. -/
def escapes : List (Char × Char) :=
  [('b', '\x08'), ('n', '\n'), ('r', '\r'), ('t', '\t'), ('\'', '\''), ('"', '"'), ('\\', '\\')]

/-- A character and how it may be written between two `quote`s: as it is, or escaped. -/
inductive Written (quote : Char) : Char → List Char → Prop where
  | plain {c : Char} : c ≠ quote → c ≠ '\\' → isLineBreak c = false → Written quote c [c]
  | escaped {e c : Char} : (e, c) ∈ escapes → Written quote c ['\\', e]

/-- A text and how it may be written between two `quote`s. -/
inductive WrittenAll (quote : Char) : List Char → List Char → Prop where
  | nil : WrittenAll quote [] []
  | cons {c : Char} {cs unit units : List Char} :
    Written quote c unit → WrittenAll quote cs units → WrittenAll quote (c :: cs) (unit ++ units)

/-- Whether a character alone is an operator. -/
def isOperatorChar (c : Char) : Bool :=
  !isBlank c && !c.isAlphanum && c != '_' && c != '"' && c != '\''

/-- An operator does not start a word. -/
theorem isOperatorChar_start {c : Char} (h : isOperatorChar c = true) :
    isIdentifierStart c = false := by
  simp only [isOperatorChar, Char.isAlphanum, Bool.and_eq_true, Bool.not_eq_true',
    Bool.or_eq_false_iff, bne_iff_ne] at h
  simp [isIdentifierStart, h.1.1.1.2.1, h.1.1.2]

/-- An operator that may take an equals sign does not start a word. -/
theorem takesEquals_start {c : Char} (h : takesEquals c = true) : isIdentifierStart c = false := by
  simp only [takesEquals, Bool.or_eq_true, beq_iff_eq] at h
  obtain ((rfl | rfl) | rfl) | rfl := h <;> decide

/-! ## Lexemes and their values -/

/-- The lexemes of a kind of token. -/
inductive Token.Kind.Lexeme : Token.Kind → List Char → Prop where
  | identifier {c : Char} {cs : List Char} :
    isIdentifierStart c = true → (∀ x ∈ cs, isIdentifierRest x = true) →
    Lexeme .identifier (c :: cs)
  | integer {sign digits : List Char} :
    IsSign sign → Numeral.isDigits digits = true → Lexeme .integer (sign ++ digits)
  | decimal {sign whole fraction : List Char} :
    IsSign sign → Numeral.isDigits whole = true → Numeral.isDigits fraction = true →
    Lexeme .decimal (sign ++ (whole ++ '.' :: fraction))
  | character {c : Char} {unit : List Char} :
    Written '\'' c unit → Lexeme .character ('\'' :: (unit ++ ['\'']))
  | string {cs units : List Char} :
    WrittenAll '"' cs units → Lexeme .string ('"' :: (units ++ ['"']))
  | operator {c : Char} : isOperatorChar c = true → Lexeme .operator [c]
  | comparison {c : Char} : takesEquals c = true → Lexeme .operator [c, '=']

/-- The lexeme of a token is one of its kind. -/
def Token.WellFormed (t : Token) : Prop := t.kind.Lexeme t.lexeme.toList

/-- The value that a lexeme of a kind stands for. -/
inductive Literal.Spelled : Literal → Token.Kind → List Char → Prop where
  | nil : Spelled .nil .identifier "NIL".toList
  | true : Spelled (.boolean true) .identifier "TRUE".toList
  | false : Spelled (.boolean false) .identifier "FALSE".toList
  | integer {sign digits : List Char} :
    IsSign sign → Numeral.isDigits digits = true →
    Spelled (.integer (Numeral.signed (sign = ['-']) (Numeral.ofDigits digits))) .integer
      (sign ++ digits)
  | decimal {sign whole fraction : List Char} :
    IsSign sign → Numeral.isDigits whole = true → Numeral.isDigits fraction = true →
    Spelled
      (.decimal ⟨Numeral.signed (sign = ['-']) (Numeral.ofDigits (whole ++ fraction)),
        fraction.length⟩)
      .decimal (sign ++ (whole ++ '.' :: fraction))
  | character {c : Char} {unit : List Char} :
    Written '\'' c unit → Spelled (.character c) .character ('\'' :: (unit ++ ['\'']))
  | string {s : String} {units : List Char} :
    WrittenAll '"' s.toList units → Spelled (.string s) .string ('"' :: (units ++ ['"']))

/-! ## Reading them -/

namespace Numeral

/-- Digits are at least one. -/
theorem isDigits_iff {cs : List Char} :
    isDigits cs = true ↔ cs ≠ [] ∧ ∀ c ∈ cs, c.isDigit = true := by
  simp [isDigits]

/-- A sign is split off, and digits are not mistaken for one. -/
private theorem sign_append {sgn : List Char} (hs : IsSign sgn) {c : Char} (hc : c.isDigit = true)
    (cs : List Char) : sign (sgn ++ c :: cs) = (decide (sgn = ['-']), c :: cs) := by
  obtain rfl | rfl | rfl := hs
  · have hplus : c ≠ '+' := by rintro rfl; exact absurd hc (by decide)
    have hminus : c ≠ '-' := by rintro rfl; exact absurd hc (by decide)
    simp [sign, hplus, hminus]
  · rfl
  · rfl

/-- A sign and digits are read as the integer that they spell. -/
theorem integer?_append {sgn digits : List Char} (hs : IsSign sgn) (hd : isDigits digits = true) :
    integer? (sgn ++ digits) = some (signed (sgn = ['-']) (ofDigits digits)) := by
  obtain ⟨hne, hall⟩ := isDigits_iff.mp hd
  obtain ⟨c, cs, rfl⟩ := List.exists_cons_of_ne_nil hne
  simp only [integer?, sign_append hs (hall c List.mem_cons_self), hd, if_true]

end Numeral

/-- A sign, digits, a dot and digits are read as one decimal. -/
theorem Decimal.ofNumeral?_append {sgn whole fraction : List Char} (hs : IsSign sgn)
    (hw : Numeral.isDigits whole = true) (hf : Numeral.isDigits fraction = true) :
    ofNumeral? (sgn ++ (whole ++ '.' :: fraction)) =
      some ⟨Numeral.signed (sgn = ['-']) (Numeral.ofDigits (whole ++ fraction)),
        fraction.length⟩ := by
  obtain ⟨hne, hall⟩ := Numeral.isDigits_iff.mp hw
  -- The digits in front of the point end at the point, which is no digit.
  have hspan : (whole ++ '.' :: fraction).span Char.isDigit = (whole, '.' :: fraction) := by
    rw [List.span_eq_takeWhile_dropWhile, List.takeWhile_append_of_pos hall,
      List.dropWhile_append_of_pos hall]
    simp [List.takeWhile, List.dropWhile, show Char.isDigit '.' = false by decide]
  obtain ⟨c, cs, rfl⟩ := List.exists_cons_of_ne_nil hne
  have hsign := Numeral.sign_append hs (hall c List.mem_cons_self) (cs ++ '.' :: fraction)
  rw [List.cons_append] at hspan ⊢
  simp only [ofNumeral?, hsign, hspan, hw, hf, Bool.and_self, if_true, List.cons_append]

namespace Literal

/-- The escaped characters stand for what the table says. -/
private theorem unescapeChar_of_mem {e c : Char} (h : (e, c) ∈ escapes) : unescapeChar e = c := by
  simp only [escapes, List.mem_cons, Prod.mk.injEq, List.not_mem_nil, or_false] at h
  obtain ⟨rfl, rfl⟩ | ⟨rfl, rfl⟩ | ⟨rfl, rfl⟩ | ⟨rfl, rfl⟩ | ⟨rfl, rfl⟩ | ⟨rfl, rfl⟩ | ⟨rfl, rfl⟩ :=
    h <;> decide

/-- One written character is read at a time. -/
private theorem unescape_append {quote c : Char} {unit : List Char} (h : Written quote c unit)
    (units : List Char) : unescape (unit ++ units) = c :: unescape units := by
  cases h with
  | plain _ hslash _ => cases units <;> simp [unescape, hslash]
  | escaped hmem => simp [unescape, unescapeChar_of_mem hmem]

/-- What is written character by character is read back. -/
private theorem unescape_writtenAll {quote : Char} {cs units : List Char}
    (h : WrittenAll quote cs units) :
    unescape units = cs := by
  induction h with
  | nil => rfl
  | cons hunit _ ih => rw [unescape_append hunit, ih]

/-- Quotes are taken away in pairs. -/
theorem unquote?_quoted (quote : Char) (body : List Char) :
    unquote? (quote :: (body ++ [quote])) = some body := by
  simp [unquote?]

/-- A token that spells a value is read as that value. -/
theorem Spelled.ofToken?_eq {v : Literal} {t : Token} (h : v.Spelled t.kind t.lexeme.toList) :
    ofToken? t = some v := by
  obtain ⟨kind, lexeme, offset⟩ := t
  obtain ⟨cs, rfl⟩ : ∃ cs, lexeme = String.ofList cs := ⟨lexeme.toList, String.ofList_toList.symm⟩
  simp only [String.toList_ofList] at h
  -- The words stand for themselves; every other literal is read from its characters.
  cases h with
  | nil => rfl
  | true => rfl
  | false => rfl
  | integer hs hd =>
    simp only [ofToken?, String.toList_ofList, Numeral.integer?_append hs hd, Option.map_some]
  | decimal hs hw hf =>
    simp only [ofToken?, String.toList_ofList, Decimal.ofNumeral?_append hs hw hf, Option.map_some]
  | @character c unit hunit =>
    have hbody : unescape unit = [c] := by simpa [unescape] using unescape_append hunit []
    simp only [ofToken?, String.toList_ofList, unquote?_quoted, Option.bind_eq_bind,
      Option.bind_some, hbody, List.head?_cons, Option.map_some]
  | string hunits =>
    simp only [ofToken?, String.toList_ofList, unquote?_quoted, Option.bind_eq_bind,
      Option.bind_some, unescape_writtenAll hunits, String.ofList_toList, Option.pure_def]

/-- A word is read as a value only if it is the word for that value. -/
private theorem spelled_of_ofWord? {word : String} {v : Literal} (h : ofWord? word = some v) :
    v.Spelled .identifier word.toList := by
  unfold ofWord? at h
  split at h
  · subst word; cases h; exact .true
  · split at h
    · subst word; cases h; exact .false
    · split at h
      · subst word; cases h; exact .nil
      · exact nomatch h

end Literal

/-- A token with a lexeme of its kind is read only as the value that it spells. -/
theorem Token.WellFormed.spelled {t : Token} (ht : t.WellFormed) {v : Literal}
    (h : Literal.ofToken? t = some v) : v.Spelled t.kind t.lexeme.toList := by
  -- The lexeme of a literal spells some value, and it is read as that one.
  have hunique : ∀ {w : Literal}, w.Spelled t.kind t.lexeme.toList →
      v.Spelled t.kind t.lexeme.toList := by
    intro w hw
    obtain rfl : v = w := Option.some.inj (h.symm.trans hw.ofToken?_eq)
    exact hw
  obtain ⟨kind, lexeme, offset⟩ := t
  unfold WellFormed at ht
  dsimp only at ht hunique ⊢
  cases kind with
  | identifier => exact Literal.spelled_of_ofWord? h
  | operator => exact nomatch h
  | integer =>
    generalize lexeme.toList = cs at ht hunique ⊢
    cases ht with
    | integer hs hd => exact hunique (.integer hs hd)
  | decimal =>
    generalize lexeme.toList = cs at ht hunique ⊢
    cases ht with
    | decimal hs hw hf => exact hunique (.decimal hs hw hf)
  | character =>
    generalize lexeme.toList = cs at ht hunique ⊢
    cases ht with
    | character hunit => exact hunique (.character hunit)
  | string =>
    generalize lexeme.toList = cs at ht hunique ⊢
    cases ht with
    | @string cs units hunits =>
      exact hunique (.string (s := String.ofList cs) (by rwa [String.toList_ofList]))

end LetLang
