import LetLang.Proofs.Denotation
import LetLang.Proofs.LongestMatch
import LetLang.Proofs.RoundTrip
import LetLang.Value
import Mathlib.Data.Nat.Digits.Lemmas

/-! # Printed numbers as source text

`print` and the lexer have different notions of a number.  The text of an integer is always one
token again.  The text of a decimal is one unless it leaves the plain notation: a zero is written
without its places, and a number with more than five zeros behind the point with an exponent.

* `Literal.Spelled.readsAs`     a lexeme is scanned and parsed as the value that it spells
* `not_readsAs_decimal`         what has no point, or an `E`, is not one decimal token
* `Decimal.text_zero`, `Decimal.mem_spell_exponential`, `Decimal.spell_plain`   the notations
* `printed_numbers_read_back`   which numbers are read back as they were -/

namespace LetLang

open Lexer

/-- At the cursor the rule reads the expression, and with it all tokens that are left. -/
def Parse.ReadsAll (p : Parse Expr) (c : Cursor) (e : Expr) : Prop :=
  ∃ d, p c = .ok e d ∧ d.rest = []

/-- The text is a single token, of the given kind, and the expression of that token is the
    literal. -/
def ReadsAs (text : String) (kind : Token.Kind) (v : Literal) : Prop :=
  ∃ t, lex text = .ok [t] ∧ t.kind = kind ∧
    Parse.expression.ReadsAll (Cursor.start [t]) (.literal 0 v)

/-! ## Literals as whole expressions -/

namespace Parse

/-- Behind the last token nothing is chained onto what has been read. -/
theorem ReadsAll.chained {p : Parse Expr} {c : Cursor} {e : Expr} (h : p.ReadsAll c e)
    {more : Nat → Expr → Parse Expr} (hmore : ∀ e, more 0 e = pure e) :
    (restoringDepth do let first ← p; more (← remaining) first).ReadsAll c e := by
  obtain ⟨d, hp, hrest⟩ := h
  -- What is chained on takes no more rounds than there are tokens.
  have hcount : d.count = 0 := by rw [d.count_eq, hrest, List.length_nil]
  refine ⟨{ d with depth := c.depth }, ?_, hrest⟩
  simp only [Parse.restoringDepth, bind, EStateM.bind, hp, remaining, hcount, hmore, pure,
    EStateM.pure]

/-- An operand without an operator behind it is the whole level. -/
theorem ReadsAll.binaryLevel {operand : Parse Expr} {c : Cursor} {e : Expr}
    (h : operand.ReadsAll c e) (level : Level) : (binaryLevel level operand).ReadsAll c e :=
  h.chained fun _ => rfl

/-- A literal alone is an expression. -/
private theorem expression_literal {t : Token} {v : Literal} (h : Literal.ofToken? t = some v) :
    Parse.expression.ReadsAll (Cursor.start [t]) (.literal 0 v) := by
  let inside : Cursor := { Cursor.start [t] with depth := 1 }
  have henter : enter (Cursor.start [t]) = .ok () inside := rfl
  have hprimary : (primary (expressionWithin maxNesting)).ReadsAll inside (.literal 0 v) :=
    ⟨_, primary_eq_literal h _ rfl, rfl⟩
  have hsecondary : (secondary (expressionWithin maxNesting)).ReadsAll inside (.literal 0 v) :=
    hprimary.chained fun _ => rfl
  -- The levels of binding are passed one by one, each of them at the end of the tokens.
  obtain ⟨d, hd, hrest⟩ := (((hsecondary.binaryLevel .multiplicative).binaryLevel
    .additive).binaryLevel .comparison).binaryLevel .logical
  refine ⟨{ d with depth := 0 }, ?_, hrest⟩
  simp only [Parse.expression, expressionWithin, restoringDepth, bind, EStateM.bind, henter, hd]
  rfl

end Parse

/-- A lexeme is scanned and parsed as the value that it spells. -/
theorem Literal.Spelled.readsAs {v : Literal} {kind : Token.Kind} {cs : List Char}
    (h : v.Spelled kind cs) : ReadsAs (String.ofList cs) kind v := by
  -- Nothing stands behind the lexeme, so there is no other token.
  have hscan := scan_lexeme h.lexeme (.inl rfl) 0 []
  rw [List.append_nil] at hscan
  have hlex : lex (String.ofList cs) = .ok [⟨kind, String.ofList cs, 0⟩] := by
    rw [lex, String.toList_ofList, hscan, scan]
    rfl
  have hvalue : Literal.ofToken? ⟨kind, String.ofList cs, 0⟩ = some v := by
    apply Literal.Spelled.ofToken?_eq
    rwa [String.toList_ofList]
  exact ⟨_, hlex, rfl, Parse.expression_literal hvalue⟩

/-! ## Texts that are no single decimal -/

/-- The tokens of a text are a tokenization of it. -/
private theorem tokenized_of_lex {text : String} {tokens : List Token} (h : lex text = .ok tokens) :
    Tokenized 0 text.toList tokens := by
  obtain ⟨tokens', htokens, hscan⟩ | ⟨e, _, _, _, _, hscan, _⟩ := scan_outcome 0 [] text.toList
  · rw [lex, hscan] at h
    cases h
    exact htokens
  · rw [lex, hscan] at h
    cases h

/-- All characters of a text that is one token are in that token, but for blanks. -/
private theorem mem_lexeme_of_lex {text : String} {t : Token} (h : lex text = .ok [t]) {c : Char}
    (hc : c ∈ text.toList) (hblank : isBlank c = false) : c ∈ t.lexeme.toList := by
  have htokenized := tokenized_of_lex h
  generalize text.toList = cs at hc htokenized
  -- In front of the token and behind it there are only blanks.
  have hgap : ∀ {gap : List Char}, Blank gap → c ∉ gap := by
    intro gap hgap hmem
    exact absurd (hgap c hmem) (by simp [hblank])
  cases htokenized with
  | token hfront hlongest hback =>
    cases hback with
    | done hback =>
      rw [hlongest.text_eq] at hc
      simpa [hgap hfront, hgap hback] using hc

/-- A decimal has a point and no letters. -/
private theorem chars_of_decimal {cs : List Char} (h : Token.Kind.decimal.Lexeme cs) :
    '.' ∈ cs ∧ 'E' ∉ cs := by
  cases h with
  | @decimal sgn whole fraction hs hw hf =>
    have hwhole : 'E' ∉ whole := fun hmem =>
      absurd ((Numeral.isDigits_iff.mp hw).2 _ hmem) (by decide)
    have hfraction : 'E' ∉ fraction := fun hmem =>
      absurd ((Numeral.isDigits_iff.mp hf).2 _ hmem) (by decide)
    have hsgn : 'E' ∉ sgn := by obtain rfl | rfl | rfl := hs <;> decide
    simp [hwhole, hfraction, hsgn]

/-- What has no point, or a letter `E`, is not one decimal. -/
theorem not_readsAs_decimal {text : String} (h : '.' ∉ text.toList ∨ 'E' ∈ text.toList)
    (v : Literal) : ¬ReadsAs text .decimal v := by
  rintro ⟨t, hlex, hkind, -⟩
  have hlexeme : t.kind.Lexeme t.lexeme.toList := lex_wellFormed hlex t List.mem_cons_self
  rw [hkind] at hlexeme
  obtain ⟨hpoint, hletter⟩ := chars_of_decimal hlexeme
  obtain hnone | hmem := h
  · -- The point of the token is in the text.
    obtain ⟨before, after, htext, -⟩ :=
      (tokenized_of_lex hlex).exists_split (t := t) List.mem_cons_self
    exact hnone (by rw [htext]; simp [hpoint])
  · -- The letter of the text is in the token.
    exact hletter (mem_lexeme_of_lex hlex hmem (by decide))

/-! ## The notations of a decimal -/

namespace Numeral

/-- A number is written with as many digits as it has. -/
private theorem length_digits {n : Nat} (hn : n ≠ 0) :
    (digits n).length = (Nat.digits 10 n).length := by
  have hpos : 0 < (Nat.digits 10 n).length :=
    List.length_pos_of_ne_nil (Nat.digits_ne_nil_iff_ne_zero.mpr hn)
  apply Nat.le_antisymm
  · rw [digits, Nat.length_toDigits_le_iff (by decide) hpos]
    exact Nat.lt_base_pow_length_digits (by decide)
  · rw [Nat.digits_length_le_iff (by decide),
      ← Nat.length_toDigits_le_iff (by decide) (length_digits_pos n)]
    exact Nat.le_refl _

end Numeral

namespace Decimal

variable {d : Decimal}

/-- Every zero is written as a single digit. -/
theorem text_zero (h : d.unscaled = 0) : d.text = "0" := by
  simp only [text, spell, isZero, h]
  rfl

/-- The sign stands in front of the notation of the magnitude. -/
private theorem spell_eq_append (h : d.unscaled ≠ 0) :
    d.spell = signOf d.unscaled ++ magnitude (Numeral.digits d.unscaled.natAbs) d.scale := by
  have hzero : d.isZero = false := by simpa [isZero] using h
  simp only [spell, hzero, Bool.false_eq_true, if_false, signOf]
  split <;> rfl

/-- Far behind the point the digits are written with an exponent. -/
theorem mem_spell_exponential (h : d.unscaled ≠ 0)
    (hfar : 5 < d.scale - (Numeral.digits d.unscaled.natAbs).length) : 'E' ∈ d.spell := by
  rw [spell_eq_append h, magnitude, if_pos hfar]
  simp

/-- Otherwise they are written as a literal is. -/
theorem spell_plain (h : d.unscaled ≠ 0) (hscale : 1 ≤ d.scale)
    (hnear : d.scale - (Numeral.digits d.unscaled.natAbs).length ≤ 5) :
    d.spell = (Literal.decimal d).spelling.2 := by
  rw [spell_eq_append h, magnitude, if_neg (by omega), if_neg (by omega), if_neg (by omega)]
  rfl

/-- A literal has a place behind the point. -/
private theorem scale_of_ofNumeral? {cs : List Char} (h : ofNumeral? cs = some d) :
    1 ≤ d.scale := by
  simp only [ofNumeral?] at h
  split at h
  · rename_i fraction _
    split at h
    · rename_i hdigits
      have hfraction := (Numeral.isDigits_iff.mp (Bool.and_eq_true_iff.mp hdigits).2).1
      have hpos := List.length_pos_of_ne_nil hfraction
      cases h
      exact Int.ofNat_le.mpr hpos
    · cases h
  · cases h

end Decimal

/-! ## Printed numbers -/

/-- Printed integers are read back.  A printed decimal with places behind the point, as literals
    and quotients have, is read back with its digits and its scale exactly if it is not zero and
    no more than five zeros stand between the point and its first digit. -/
theorem printed_numbers_read_back :
    (∀ n, ReadsAs (Value.integer n).text .integer (.integer n)) ∧
    (∀ cs d, Decimal.ofNumeral? cs = some d → 1 ≤ d.scale) ∧
    (∀ a b : Decimal, 1 ≤ (a.divide b).scale) ∧
    ∀ d : Decimal, 1 ≤ d.scale →
      (ReadsAs (Value.decimal d).text .decimal (.decimal d) ↔
        d.unscaled ≠ 0 ∧ d.scale - (Nat.digits 10 d.unscaled.natAbs).length ≤ 5) := by
  refine ⟨fun n => ?_, fun cs d => Decimal.scale_of_ofNumeral?, fun a b => Int.le_refl 1, ?_⟩
  · exact (Literal.spelled_spelling (v := .integer n) trivial).readsAs
  · intro d hscale
    show ReadsAs d.text .decimal (.decimal d) ↔ _
    by_cases hzero : d.unscaled = 0
    · -- A zero is written without a point.
      have htext : ¬ReadsAs d.text .decimal (.decimal d) :=
        not_readsAs_decimal (.inl (by rw [Decimal.text_zero hzero]; decide)) _
      exact ⟨fun h => absurd h htext, fun h => absurd hzero h.1⟩
    · rw [← Numeral.length_digits (by omega)]
      by_cases hnear : d.scale - (Numeral.digits d.unscaled.natAbs).length ≤ 5
      · have hspelled := Literal.spelled_spelling (v := .decimal d) hscale
        rw [← Decimal.spell_plain hzero hscale hnear] at hspelled
        exact ⟨fun _ => ⟨hzero, hnear⟩, fun _ => hspelled.readsAs⟩
      · -- The exponent is no part of a number.
        have hletter := Decimal.mem_spell_exponential hzero (by omega)
        have htext : ¬ReadsAs d.text .decimal (.decimal d) :=
          not_readsAs_decimal (.inr (by rwa [Decimal.text, String.toList_ofList])) _
        exact ⟨fun h => absurd h htext, fun h => absurd h.2 hnear⟩

/-- Five zeros behind the point are read back and six are not, and neither is a zero. -/
theorem twelve_read_back :
    ReadsAs "0.0000012" .decimal (.decimal ⟨12, 7⟩) ∧
    ¬ReadsAs "1.2E-7" .decimal (.decimal ⟨12, 8⟩) ∧
    ¬ReadsAs "0" .decimal (.decimal ⟨0, 2⟩) := by
  have h := printed_numbers_read_back.2.2.2
  refine ⟨?_, ?_, ?_⟩
  · exact (h ⟨12, 7⟩ (by decide)).mpr (by decide)
  · exact fun hread => absurd ((h ⟨12, 8⟩ (by decide)).mp hread) (by decide)
  · exact fun hread => absurd ((h ⟨0, 2⟩ (by decide)).mp hread) (by decide)

end LetLang
