import LetLang.Value
import Mathlib.Algebra.Order.Field.Rat
import Mathlib.Algebra.Order.Group.Unbundled.Int
import Mathlib.Algebra.Order.Field.Basic
import Mathlib.Tactic.FieldSimp
import Mathlib.Tactic.Linarith
import Mathlib.Tactic.Ring

/-! # Quotients are correctly rounded

A decimal stands for a rational number, `Decimal.toRat`, and `NearestEven x q` says in terms of
distances alone that `q` is the integer nearest to the number `x`, the even one of two that are
equally near.  There is at most one such integer.  The quotient of two decimals is found by
truncating division and a look at the remainder; its count of tenths is that integer.

## Key results

- `NearestEven.unique`: at most one integer is the nearest
- `Decimal.nearestEven_roundHalfEven`: rounding by quotient and remainder finds it
- `Decimal.nearestEven_divide`: the tenths of a quotient are those of the exact one, rounded once
- `quotient_correctly_rounded`: the same about the operator `/`, for all signs and scales
-/

namespace LetLang

/-! ## The nearest integer -/

/-- The integer `q` is as near to `x` as any, and even if another one is equally near. -/
structure NearestEven (x : ℚ) (q : ℤ) : Prop where
  nearest : ∀ m : ℤ, |x - q| ≤ |x - m|
  even_of_tie : ∀ m : ℤ, m ≠ q → |x - m| = |x - q| → Even q

namespace NearestEven

variable {x : ℚ} {q q' : ℤ}

/-- An integer at most one half away is the nearest, if it is even at exactly one half. -/
private theorem of_abs_le (hle : |x - q| ≤ 1 / 2) (hhalf : |x - q| = 1 / 2 → Even q) :
    NearestEven x q := by
  -- Integers are at least one apart, so what `q` is nearer than one half, all others are farther.
  have hother : ∀ m : ℤ, m ≠ q → 1 - |x - q| ≤ |x - m| := by
    intro m hm
    have hone : (1 : ℤ) ≤ |m - q| := Int.one_le_abs (by omega)
    have hone' : (1 : ℚ) ≤ |(m : ℚ) - q| := by exact_mod_cast hone
    have htriangle := abs_sub_le (m : ℚ) x q
    rw [abs_sub_comm (m : ℚ) x] at htriangle
    linarith
  constructor
  · intro m
    by_cases hm : m = q
    · rw [hm]
    · have := hother m hm
      linarith
  · intro m hm htie
    apply hhalf
    have := hother m hm
    linarith

/-- At most one integer is the nearest. -/
theorem unique (h : NearestEven x q) (h' : NearestEven x q') : q = q' := by
  by_contra hne
  have htie : |x - q'| = |x - q| := le_antisymm (h'.nearest q) (h.nearest q')
  have heven := h.even_of_tie q' (fun heq => hne heq.symm) htie
  have heven' := h'.even_of_tie q hne htie.symm
  obtain ⟨k, rfl⟩ := heven
  obtain ⟨k', rfl⟩ := heven'
  -- Two even integers that are equally near have an integer half-way, which is nearer than both.
  have hmiddle : x = k + k' := by
    obtain heq | heq := abs_eq_abs.mp htie
    · refine absurd ?_ hne
      have : ((k + k : ℤ) : ℚ) = (k' + k' : ℤ) := by linarith
      exact_mod_cast this
    · push_cast at heq
      linarith
  have hzero := h.nearest (k + k')
  rw [hmiddle] at hzero
  push_cast at hzero
  rw [sub_self, abs_zero, abs_nonpos_iff] at hzero
  apply hne
  have : (k : ℚ) = k' := by linarith
  rw [Int.cast_inj.mp this]

/-- The nearest integer on the other side of zero. -/
private theorem neg (h : NearestEven x q) : NearestEven (-x) (-q) := by
  -- Distances do not change when both ends are negated.
  have hdistance : ∀ m : ℤ, |(-x) - m| = |x - (-m : ℤ)| := by
    intro m
    rw [← abs_neg]
    congr 1
    push_cast
    ring
  constructor
  · intro m
    rw [hdistance, hdistance, neg_neg]
    exact h.nearest (-m)
  · intro m hm htie
    rw [hdistance, hdistance, neg_neg] at htie
    exact (h.even_of_tie (-m) (by omega) htie).neg

/-- A fraction of less than one half is dropped, and so is one half behind an even integer. -/
private theorem of_drop {rest : ℚ} (h : |rest| < 1 / 2 ∨ |rest| = 1 / 2 ∧ Even q) :
    NearestEven (q + rest) q := by
  have hrest : (q : ℚ) + rest - q = rest := by ring
  apply of_abs_le <;> rw [hrest]
  · obtain h | h := h
    · exact h.le
    · exact h.1.le
  · intro htie
    obtain h | h := h
    · exact absurd htie h.ne
    · exact h.2

/-- A fraction of more than one half is rounded away from the integer in front of it, and so is one
    half behind an odd integer. -/
private theorem of_away {rest : ℚ} (hlt : |rest| < 1)
    (h : 1 / 2 < |rest| ∨ |rest| = 1 / 2 ∧ ¬ Even q) :
    NearestEven (q + rest) (if rest < 0 then q - 1 else q + 1) := by
  have hhalf : 1 / 2 ≤ |rest| := by
    obtain h | h := h
    · exact h.le
    · exact h.1.ge
  -- Seen from the next integer, the distance is what is missing to a whole.
  have hdistance : |(q : ℚ) + rest - (if rest < 0 then q - 1 else q + 1 : ℤ)| = 1 - |rest| := by
    split
    · rename_i hneg
      rw [abs_of_neg hneg] at hlt ⊢
      rw [abs_of_nonneg] <;> push_cast <;> linarith
    · rename_i hnonneg
      rw [abs_of_nonneg (not_lt.mp hnonneg)] at hlt ⊢
      rw [abs_of_nonpos] <;> push_cast <;> linarith
  apply of_abs_le <;> rw [hdistance]
  · linarith
  · intro htie
    obtain h | h := h
    · linarith
    · -- The neighbours of an odd integer are even.
      have hodd := Int.not_even_iff_odd.mp h.2
      split
      · exact hodd.sub_odd odd_one
      · exact hodd.add_odd odd_one

end NearestEven

namespace Decimal

/-! ## Rounding by quotient and remainder -/

/-- The remainder of a truncating division has the sign of the dividend. -/
private theorem tmod_neg_iff {n d : ℤ} (hr : n.tmod d ≠ 0) : n.tmod d < 0 ↔ n < 0 := by
  constructor
  · intro h
    by_contra hn
    have := Int.tmod_nonneg d (Int.not_lt.mp hn)
    omega
  · intro h
    have := Int.tmod_nonneg (a := -n) d (by omega)
    rw [Int.neg_tmod] at this
    omega

/-- On which side of the truncated quotient the exact one is. -/
private theorem tmod_div_neg_iff {n d : ℤ} (hd : d ≠ 0) (hr : n.tmod d ≠ 0) :
    (n.tmod d : ℚ) / d < 0 ↔ decide (n < 0) ≠ decide (d < 0) := by
  have hsign := tmod_neg_iff hr
  rw [div_neg_iff]
  simp only [Int.cast_pos, Int.cast_lt_zero, ne_eq, decide_eq_decide]
  omega

/-- The rounded quotient is the integer nearest to the exact one. -/
theorem nearestEven_roundHalfEven (n : ℤ) {d : ℤ} (hd : d ≠ 0) :
    NearestEven ((n : ℚ) / d) (roundHalfEven n d) := by
  have hpos : (0 : ℚ) < d.natAbs := by
    have := Int.natAbs_pos.mpr hd
    exact_mod_cast this
  have hd' : (d : ℚ) ≠ 0 := Int.cast_ne_zero.mpr hd
  -- What is left over behind the truncated quotient, as a fraction of the divisor.
  obtain ⟨rest, hrest⟩ : ∃ rest : ℚ, rest = (n.tmod d : ℚ) / d := ⟨_, rfl⟩
  have hexact : (n : ℚ) / d = n.tdiv d + rest := by
    have hsplit : (n : ℚ) = d * n.tdiv d + n.tmod d := by
      exact_mod_cast (Int.mul_tdiv_add_tmod n d).symm
    rw [hrest]
    field_simp
    linarith
  have hsize : |rest| = ((n.tmod d).natAbs : ℚ) / d.natAbs := by
    rw [hrest, abs_div, Nat.cast_natAbs, Nat.cast_natAbs, Int.cast_abs, Int.cast_abs]
  have hlt : |rest| < 1 := by
    rw [hsize, div_lt_one hpos, Nat.cast_lt, Int.natAbs_tmod]
    exact Nat.mod_lt _ (Int.natAbs_pos.mpr hd)
  -- Doubling the remainder compares the fraction with one half.
  have hmore : d.natAbs < 2 * (n.tmod d).natAbs ↔ 1 / 2 < |rest| := by
    rw [hsize, div_lt_div_iff₀ two_pos hpos]
    norm_cast
    omega
  have hequal : 2 * (n.tmod d).natAbs = d.natAbs ↔ |rest| = 1 / 2 := by
    rw [hsize, div_eq_div_iff hpos.ne' two_ne_zero]
    norm_cast
    omega
  have heven : (n.tdiv d).tmod 2 = 0 ↔ Even (n.tdiv d) := by
    rw [even_iff_two_dvd, Int.dvd_iff_tmod_eq_zero]
  rw [hexact, roundHalfEven]
  simp only [Bool.not_eq_true', Bool.or_eq_false_iff, decide_eq_false_iff_not,
    Bool.and_eq_false_iff, beq_eq_false_iff_ne, bne_eq_false_iff_eq, bne_iff_ne, ne_eq, hmore,
    hequal, heven]
  split
  · rename_i hkeep
    obtain ⟨hle, htie⟩ := hkeep
    apply NearestEven.of_drop
    by_cases hhalf : |rest| = 1 / 2
    · exact .inr ⟨hhalf, htie.resolve_left (not_not.mpr hhalf)⟩
    · exact .inl (lt_of_le_of_ne (not_lt.mp hle) hhalf)
  · rename_i haway
    have haway' : 1 / 2 < |rest| ∨ |rest| = 1 / 2 ∧ ¬ Even (n.tdiv d) := by
      by_cases hmost : 1 / 2 < |rest|
      · exact .inl hmost
      · simp only [hmost, not_false_eq_true, true_and, not_or, not_not] at haway
        exact .inr haway
    have hr : n.tmod d ≠ 0 := by
      intro hzero
      rw [hrest, hzero] at haway'
      norm_num at haway'
    have hside := tmod_div_neg_iff hd hr
    rw [← hrest] at hside
    simp only [← hside]
    exact NearestEven.of_away hlt haway'

/-! ## Decimals as rational numbers -/

/-- The number that a decimal stands for. -/
def toRat (d : Decimal) : ℚ := d.unscaled * (10 : ℚ) ^ (-d.scale)

/-- The decimal of the same digits with the other sign. -/
def neg (d : Decimal) : Decimal := ⟨-d.unscaled, d.scale⟩

@[simp] theorem toRat_neg (d : Decimal) : d.neg.toRat = -d.toRat := by
  simp [neg, toRat]

/-- Only decimals without units are zero, at any scale. -/
private theorem toRat_eq_zero_iff {d : Decimal} : d.toRat = 0 ↔ d.unscaled = 0 := by
  have hpow : (10 : ℚ) ^ (-d.scale) ≠ 0 := zpow_ne_zero _ (by norm_num)
  rw [toRat, mul_eq_zero, or_iff_left hpow, Int.cast_eq_zero]

/-- An exponent of less than 32 bits is not cut off. -/
private theorem shiftFactor_eq {shift : ℤ} (h : |shift| < 2 ^ 32) :
    (shiftFactor shift : ℚ) = 10 ^ |shift| := by
  rw [Int.abs_eq_natAbs] at h ⊢
  have hsmall : shift.natAbs % 4294967296 = shift.natAbs := by
    apply Nat.mod_eq_of_lt
    omega
  have hpow : Numeral.pow10 shift.natAbs = 10 ^ shift.natAbs := rfl
  rw [shiftFactor, hsmall, hpow, zpow_natCast]
  push_cast
  rfl

/-- The tenths of a quotient are the tenths of the exact quotient, rounded. -/
theorem nearestEven_divide {a b : Decimal} (hb : b.unscaled ≠ 0)
    (hshift : |b.scale + 1 - a.scale| < 2 ^ 32) :
    NearestEven (10 * a.toRat / b.toRat) (a.divide b).unscaled := by
  have hfactor := shiftFactor_eq hshift
  have hten : (10 : ℚ) ≠ 0 := by norm_num
  have hb' : (b.unscaled : ℚ) ≠ 0 := Int.cast_ne_zero.mpr hb
  simp only [divide]
  -- The power of ten goes to the dividend or, if the shift is to the right, to the divisor.
  split
  · rename_i hleft
    have hexact : 10 * a.toRat / b.toRat =
        ((a.unscaled * shiftFactor (b.scale + 1 - a.scale) : ℤ) : ℚ) / b.unscaled := by
      push_cast
      rw [hfactor, abs_of_nonneg hleft, toRat, toRat, zpow_sub₀ hten, zpow_add₀ hten, zpow_neg,
        zpow_neg]
      field_simp
    rw [hexact]
    exact nearestEven_roundHalfEven _ hb
  · rename_i hright
    have hfactor_ne : (shiftFactor (b.scale + 1 - a.scale) : ℤ) ≠ 0 := by
      have : (shiftFactor (b.scale + 1 - a.scale) : ℚ) ≠ 0 := by
        rw [hfactor]
        exact zpow_ne_zero _ hten
      exact_mod_cast this
    have hexact : 10 * a.toRat / b.toRat =
        (a.unscaled : ℚ) / (b.unscaled * shiftFactor (b.scale + 1 - a.scale) : ℤ) := by
      push_cast
      rw [hfactor, abs_of_neg (not_le.mp hright), neg_sub, toRat, toRat, zpow_sub₀ hten,
        zpow_add₀ hten, zpow_neg, zpow_neg]
      field_simp
    rw [hexact]
    exact nearestEven_roundHalfEven _ (mul_ne_zero hb hfactor_ne)

end Decimal

/-! ## The operator -/

namespace Value

/-- The quotient of two decimals has one place. -/
private theorem slash_eq {l r : Decimal} (hr : r.toRat ≠ 0) :
    binaryNamed "/" (.decimal l) (.decimal r) = .ok (.decimal ⟨(l.divide r).unscaled, 1⟩) := by
  have hzero : r.isZero = false := by
    simpa [Decimal.isZero] using fun h => hr (Decimal.toRat_eq_zero_iff.mpr h)
  have hsymbol : Operator.ofSymbol? "/" = some .divide := rfl
  simp [binaryNamed, hsymbol, binary, div?, hzero, Decimal.divide]

/-- Whatever the operands are, the nearest integer to their exact quotient in tenths is found. -/
private theorem slash_of_nearestEven {l r : Decimal} {q : ℤ} (hr : r.toRat ≠ 0)
    (hshift : |r.scale + 1 - l.scale| < 2 ^ 32) (hq : NearestEven (10 * l.toRat / r.toRat) q) :
    binaryNamed "/" (.decimal l) (.decimal r) = .ok (.decimal ⟨q, 1⟩) := by
  have hunits : r.unscaled ≠ 0 := fun h => hr (Decimal.toRat_eq_zero_iff.mpr h)
  rw [slash_eq hr, (Decimal.nearestEven_divide hunits hshift).unique hq]

end Value

/-- Division of decimals is correctly rounded.  The quotient by a decimal that is not zero has one
    place, and its tenths are the integer nearest to ten times the exact quotient, the even one of
    two that are equally near.  So it depends on what the operands stand for and not on their
    scales, and it changes its sign with either of them. -/
theorem quotient_correctly_rounded (l r : Decimal) (hr : r.unscaled ≠ 0)
    (hshift : |r.scale + 1 - l.scale| < 2 ^ 32) :
    ∃ q : ℤ, Value.binaryNamed "/" (.decimal l) (.decimal r) = .ok (.decimal ⟨q, 1⟩) ∧
      (∀ m : ℤ, NearestEven (10 * l.toRat / r.toRat) m ↔ m = q) ∧
      (∀ l' r' : Decimal, l'.toRat = l.toRat → r'.toRat = r.toRat →
        |r'.scale + 1 - l'.scale| < 2 ^ 32 →
        Value.binaryNamed "/" (.decimal l') (.decimal r') = .ok (.decimal ⟨q, 1⟩)) ∧
      Value.binaryNamed "/" (.decimal l.neg) (.decimal r) = .ok (.decimal ⟨-q, 1⟩) ∧
      Value.binaryNamed "/" (.decimal l) (.decimal r.neg) = .ok (.decimal ⟨-q, 1⟩) := by
  have hq := Decimal.nearestEven_divide hr hshift
  have hr' : r.toRat ≠ 0 := fun h => hr (Decimal.toRat_eq_zero_iff.mp h)
  refine ⟨(l.divide r).unscaled, Value.slash_eq hr', ?_, ?_, ?_, ?_⟩
  · intro m
    constructor
    · intro hm
      exact hm.unique hq
    · intro hm
      rw [hm]
      exact hq
  · intro l₁ r₁ hl₁ hr₁ hshift₁
    apply Value.slash_of_nearestEven (hr₁ ▸ hr') hshift₁
    rw [hl₁, hr₁]
    exact hq
  -- Negating an operand negates the exact quotient, and with it the nearest integer.
  · apply Value.slash_of_nearestEven hr' (show |r.scale + 1 - l.neg.scale| < 2 ^ 32 from hshift)
    rw [Decimal.toRat_neg, mul_neg, neg_div]
    exact hq.neg
  · have hneg : r.neg.toRat ≠ 0 := by rwa [Decimal.toRat_neg, neg_ne_zero]
    apply Value.slash_of_nearestEven hneg (show |r.neg.scale + 1 - l.scale| < 2 ^ 32 from hshift)
    rw [Decimal.toRat_neg, div_neg]
    exact hq.neg

/-- A quotient of exactly -3.5 tenths is rounded to -4 tenths, however its operands are scaled. -/
theorem half_tenths_are_even :
    NearestEven (10 * Decimal.toRat ⟨-35, 2⟩ / Decimal.toRat ⟨1000, 3⟩) (-4) ∧
    Value.binaryNamed "/" (.decimal ⟨-3500, 4⟩) (.decimal ⟨1, 0⟩) = .ok (.decimal ⟨-4, 1⟩) ∧
    Value.binaryNamed "/" (.decimal ⟨-35, 2⟩) (.decimal ⟨-1000, 3⟩) = .ok (.decimal ⟨4, 1⟩) := by
  obtain ⟨q, hq, hnearest, hscales, -, hneg⟩ :=
    quotient_correctly_rounded ⟨-35, 2⟩ ⟨1000, 3⟩ (by decide) (by decide)
  -- The quotient is computed once; the other scales and signs follow from it.
  obtain rfl : q = -4 := by
    have htenths : Value.binaryNamed "/" (.decimal ⟨-35, 2⟩) (.decimal ⟨1000, 3⟩) =
        .ok (.decimal ⟨-4, 1⟩) := by decide +kernel
    rw [htenths] at hq
    cases hq
    rfl
  refine ⟨(hnearest (-4)).mpr rfl, hscales _ _ ?_ ?_ (by decide), hneg⟩
  · norm_num [Decimal.toRat]
  · norm_num [Decimal.toRat]

end LetLang
