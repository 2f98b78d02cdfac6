import LetLang.Numeral

/-! # Decimal numbers

A `Decimal` is an integer together with the number of its digits that stand behind the
point: `⟨150, 2⟩` is 1.50.  The scale is part of the value's text but not of its size,
so 1.5 and 1.50 compare as equal and print differently.

Sums, differences and products are exact; the comments say which scale the result has.
Quotients are rounded once, half to even, to one digit behind the point.

Quotients are the language's own.  Sums, differences, products, comparison, the range of a
double and the written form follow a library of decimals that the language builds on and
that is not part of it; the definitions below are its documented conventions.  Only the
theorems about reading and writing numbers say anything about them: all others hold
whatever these operations give, as long as a decimal gives a decimal. -/

namespace LetLang

/-- The number `unscaled * 10 ^ (-scale)`. -/
structure Decimal where
  unscaled : Int
  scale : Int
deriving DecidableEq, Repr, Inhabited

namespace Decimal

/-- Whether the number is zero; the scale of a zero does not matter. -/
def isZero (d : Decimal) : Bool := d.unscaled == 0

/-- The same number with `k` more digits behind the point. -/
def extend (d : Decimal) (k : Nat) : Decimal := ⟨d.unscaled * Numeral.pow10 k, d.scale + k⟩

/-- The number as a count of units of `10 ^ (-scale)`, for a scale that is not smaller
    than its own.  Zero is no units at any scale, however far away. -/
def unitsAt (d : Decimal) (scale : Int) : Int :=
  if d.isZero then 0 else d.unscaled * Numeral.pow10 (scale - d.scale).toNat

/-! ## Order -/

/-- The place of the first digit, counted from the point to the left: 1 for 5.0 and 0 for
    0.5.  Of two positive numbers the one with the higher place is larger. -/
def place (d : Decimal) : Int := (Numeral.digits d.unscaled.natAbs).length - d.scale

/-- Comparison of numbers that have the same sign.  Only numbers whose first digits stand
    at the same place are brought to a common scale, which is then not further away than
    their digits reach. -/
def compareAlike (a b : Decimal) : Ordering :=
  if a.isZero then .eq
  else if a.place = b.place then
    let scale := max a.scale b.scale
    Ord.compare (a.unitsAt scale) (b.unitsAt scale)
  else if 0 < a.unscaled then Ord.compare a.place b.place
  else Ord.compare b.place a.place

/-- Numeric comparison, blind to scales. -/
def compare (a b : Decimal) : Ordering :=
  (Ord.compare a.unscaled.sign b.unscaled.sign).then (compareAlike a b)

/-- Numeric equality, blind to scales. -/
def equal (a b : Decimal) : Bool := a.compare b == .eq

/-! ## Sums, differences and products -/

/-- How many digits a zero operand of scale `other` adds to a number of scale `own`:
    as many as it has more, but at most fifteen. -/
def padding (own other : Int) : Nat := min (other - own).toNat 15

/-- The sum, at the larger scale.  Adding zero keeps the other number and pads it. -/
def add (a b : Decimal) : Decimal :=
  if b.isZero then a.extend (padding a.scale b.scale)
  else if a.isZero then b.extend (padding b.scale a.scale)
  else
    let scale := max a.scale b.scale
    ⟨a.unitsAt scale + b.unitsAt scale, scale⟩

/-- The difference, at the larger scale. -/
def sub (a b : Decimal) : Decimal :=
  let scale := max a.scale b.scale
  ⟨a.unitsAt scale - b.unitsAt scale, scale⟩

/-- Number of zeros at the end of the digits of `n`. -/
def trailingZeros (n : Nat) : Nat :=
  ((Numeral.digits n).reverse.takeWhile (· == '0')).length

/-- The same number without zeros at the end of its digits; zero has scale 0. -/
def normalize (d : Decimal) : Decimal :=
  if d.isZero then ⟨0, 0⟩
  else
    let zeros := trailingZeros d.unscaled.natAbs
    ⟨d.unscaled.tdiv (Numeral.pow10 zeros), d.scale - zeros⟩

/-- The factors that a product leaves out: one, written with at most 38 places. -/
def isUnit (d : Decimal) : Bool :=
  0 ≤ d.scale && d.scale ≤ 38 && d.unscaled == Numeral.pow10 d.scale.toNat

/-- The product, at the sum of the scales.  A unit factor is left out, and then the
    other factor is normalized. -/
def mul (a b : Decimal) : Decimal :=
  if a.isUnit then b.normalize
  else if b.isUnit then a.normalize
  else ⟨a.unscaled * b.unscaled, a.scale + b.scale⟩

/-! ## Quotients -/

/-- The integer nearest to `n / d`, the even one of two that are equally near. -/
def roundHalfEven (n d : Int) : Int :=
  let quotient := n.tdiv d
  let twice := 2 * (n.tmod d).natAbs
  let away := d.natAbs < twice || (twice == d.natAbs && quotient.tmod 2 != 0)
  if !away then quotient
  else if decide (n < 0) != decide (d < 0) then quotient - 1
  else quotient + 1

/-- The power of ten by which a quotient is shifted, whose exponent has 32 bits. -/
def shiftFactor (shift : Int) : Nat := Numeral.pow10 (shift.natAbs % 4294967296)

/-- The quotient of `a` by a non-zero `b`, rounded half to even to one place, for scales
    less than 2 ^ 32 apart. -/
def divide (a b : Decimal) : Decimal :=
  -- In tenths the quotient is `a.unscaled * 10 ^ shift / b.unscaled`.
  let shift := b.scale + 1 - a.scale
  let tenths :=
    if 0 ≤ shift then roundHalfEven (a.unscaled * shiftFactor shift) b.unscaled
    else roundHalfEven a.unscaled (b.unscaled * shiftFactor shift)
  ⟨tenths, 1⟩

/-! ## Range of a double -/

/-- The least magnitude that rounds to infinity as an IEEE double. -/
def doubleLimit : Nat := Nat.pow 2 1024 - Nat.pow 2 970

/-- Whether the nearest IEEE double is finite. -/
def fitsDouble (d : Decimal) : Bool :=
  if 0 ≤ d.scale then d.unscaled.natAbs < doubleLimit * Numeral.pow10 d.scale.toNat
  else d.unscaled.natAbs * Numeral.pow10 (-d.scale).toNat < doubleLimit

/-! ## Text -/

/-- Digits with a point before the last `places` of them, and at least one digit in
    front of it. -/
def pointed (digits : List Char) (places : Nat) : List Char :=
  let padded := List.replicate (places + 1 - digits.length) '0' ++ digits
  let front := padded.length - places
  padded.take front ++ '.' :: padded.drop front

/-- One digit in front of the point, and the others, if any, behind it. -/
def mantissa : List Char → List Char
  | [] => []
  | [c] => [c]
  | c :: rest => c :: '.' :: rest

/-- The text of a magnitude with the given digits and scale: in exponential form when
    more than five zeros would follow the point, with a power of ten when more than
    fifteen zeros would follow the digits, else in full with every place of the scale. -/
def magnitude (digits : List Char) (scale : Int) : List Char :=
  let count : Int := digits.length
  if 5 < scale - count then mantissa digits ++ 'E' :: Numeral.spell (count - scale - 1)
  else if 15 < -scale then digits ++ 'e' :: '+' :: Numeral.spell (-scale)
  else if scale ≤ 0 then digits ++ List.replicate (-scale).toNat '0'
  else pointed digits scale.toNat

/-- The written form as a list of characters; every zero is written `0`. -/
def spell (d : Decimal) : List Char :=
  let body := magnitude (Numeral.digits d.unscaled.natAbs) (if d.isZero then 0 else d.scale)
  if d.unscaled < 0 then '-' :: body else body

/-- The written form. -/
def text (d : Decimal) : String := String.ofList d.spell

/-- Read a decimal: an optional sign, digits, a point and digits, and nothing else.
    The digits behind the point give the scale. -/
def ofNumeral? (cs : List Char) : Option Decimal :=
  let (negative, body) := Numeral.sign cs
  let (whole, rest) := body.span Char.isDigit
  match rest with
  | '.' :: fraction =>
    if Numeral.isDigits whole && Numeral.isDigits fraction then
      some ⟨Numeral.signed negative (Numeral.ofDigits (whole ++ fraction)), fraction.length⟩
    else none
  | _ => none

end Decimal

end LetLang
