/-! # Decimal numerals

Reading and writing integers in base ten.  A numeral is an optional sign followed by at
least one digit; the written form has no leading zeros and a `-` for negative numbers
only.

* `ofDigits_digits`   reading the digits of `n` gives `n`
* `length_digits_pos` no number is written with an empty list of digits -/

namespace LetLang.Numeral

/-- The digits of `n`, most significant first, without leading zeros. -/
def digits (n : Nat) : List Char := Nat.toDigits 10 n

/-- The number that a list of digits spells. -/
def ofDigits (cs : List Char) : Nat := Nat.ofDigitChars 10 cs 0

/-- A one followed by `k` zeros. -/
def pow10 (k : Nat) : Nat := Nat.pow 10 k

/-- The written form of an integer as a list of characters. -/
def spell (n : Int) : List Char :=
  if n < 0 then '-' :: digits n.natAbs else digits n.natAbs

/-- The written form of an integer. -/
def text (n : Int) : String := String.ofList (spell n)

/-- Split off a sign: whether it was a `-`, and what follows it. -/
def sign : List Char → Bool × List Char
  | '-' :: cs => (true, cs)
  | '+' :: cs => (false, cs)
  | cs => (false, cs)

/-- The number of magnitude `n` with the given sign. -/
def signed (negative : Bool) (n : Nat) : Int := if negative then -(n : Int) else (n : Int)

/-- Whether `cs` is a non-empty list of digits. -/
def isDigits (cs : List Char) : Bool := !cs.isEmpty && cs.all Char.isDigit

/-- Read an integer: an optional sign and digits, and nothing else. -/
def integer? (cs : List Char) : Option Int :=
  let (negative, body) := sign cs
  if isDigits body then some (signed negative (ofDigits body)) else none

/-! ## Laws -/

/-- Reading the digits of a number gives that number. -/
@[simp] theorem ofDigits_digits (n : Nat) : ofDigits (digits n) = n :=
  Nat.ofDigitChars_toDigits (by decide) (by decide)

/-- One without zeros. -/
@[simp] theorem pow10_zero : pow10 0 = 1 := rfl

/-- Every number has at least one digit. -/
theorem length_digits_pos (n : Nat) : 0 < (digits n).length := Nat.length_toDigits_pos

end LetLang.Numeral
