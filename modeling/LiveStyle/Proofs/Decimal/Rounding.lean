import LiveStyle.Decimal.Shortest
import Mathlib.Algebra.Order.Field.Power
import Mathlib.Algebra.Order.Field.Rat
import Mathlib.Tactic.FieldSimp
import Mathlib.Tactic.Linarith
import Mathlib.Tactic.Positivity
import Mathlib.Tactic.Ring

/-! # Rounding intervals

Around every float lies the interval of the numbers that round to it, with its ends where the
significand is even.  The shortest decimal of a float lies in its interval, and no number lies
in the intervals of two floats, so the shortest decimal tells which float it was made from.
-/
namespace LiveStyle.Decimal

def Digits.value (d : Digits) : ℚ := d.coefficient * (10 : ℚ) ^ d.exponent

section Scale

/-- What makes a power of two and a power of ten whole numbers at once. -/
def Scale.denominator (binary decimal : Int) : Nat :=
  2 ^ (2 - binary).toNat * 10 ^ (-decimal).toNat

theorem Scale.denominator_pos (binary decimal : Int) : 0 < denominator binary decimal := by
  rw [denominator]
  positivity

private theorem pow_toNat {a : ℚ} (ha : a ≠ 0) (n : Int) :
    a ^ n.toNat = a ^ n * a ^ (-n).toNat := by
  rw [← zpow_natCast, ← zpow_natCast, ← zpow_add₀ ha]
  congr 1
  omega

theorem Scale.quarter_between (binary decimal : Int) :
    ((between binary decimal).quarter : ℚ) =
      (2 : ℚ) ^ (binary - 2) * denominator binary decimal := by
  simp only [between, denominator, Nat.pow_eq, Nat.cast_mul, Nat.cast_pow, Nat.cast_ofNat]
  rw [pow_toNat two_ne_zero (binary - 2), neg_sub, mul_assoc]

theorem Scale.step_between (binary decimal : Int) :
    ((between binary decimal).step : ℚ) = (10 : ℚ) ^ decimal * denominator binary decimal := by
  simp only [between, denominator, Nat.pow_eq, Nat.cast_mul, Nat.cast_pow, Nat.cast_ofNat]
  rw [pow_toNat (by norm_num) decimal, mul_left_comm]

variable (n c : Nat) (binary decimal : Int)

/-- Comparing on the common scale is comparing the numbers. -/
theorem Scale.quarters_le_steps_iff :
    n * (between binary decimal).quarter ≤ c * (between binary decimal).step ↔
      (n : ℚ) * (2 : ℚ) ^ (binary - 2) ≤ c * (10 : ℚ) ^ decimal := by
  have hpos : (0 : ℚ) < denominator binary decimal := mod_cast denominator_pos binary decimal
  rw [← mul_le_mul_iff_of_pos_right hpos, mul_assoc, mul_assoc, ← quarter_between, ← step_between]
  norm_cast

theorem Scale.steps_le_quarters_iff :
    c * (between binary decimal).step ≤ n * (between binary decimal).quarter ↔
      (c : ℚ) * (10 : ℚ) ^ decimal ≤ n * (2 : ℚ) ^ (binary - 2) := by
  have hpos : (0 : ℚ) < denominator binary decimal := mod_cast denominator_pos binary decimal
  rw [← mul_le_mul_iff_of_pos_right hpos, mul_assoc, mul_assoc, ← quarter_between, ← step_between]
  norm_cast

end Scale

namespace Binary

/-! ## The interval of a float -/

def quarter (b : Binary) : ℚ := (2 : ℚ) ^ (b.exponent - 2)

/-- The lower end of the interval, in quarters of the last place. -/
def lower (b : Binary) : Nat := 4 * b.significand - if b.denseBelow then 1 else 2

def upper (b : Binary) : Nat := 4 * b.significand + 2

/-- The number rounds to the float: ties go to the even significand. -/
def Covers (b : Binary) (x : ℚ) : Prop :=
  if b.significand % 2 = 0 then b.lower * b.quarter ≤ x ∧ x ≤ b.upper * b.quarter
  else b.lower * b.quarter < x ∧ x < b.upper * b.quarter

variable {b b' : Binary} {x y : ℚ}

theorem quarter_pos (b : Binary) : 0 < b.quarter := by
  rw [quarter]
  positivity

theorem Covers.lower_le (h : b.Covers x) : b.lower * b.quarter ≤ x := by
  rw [Covers] at h
  split at h
  · exact h.1
  · exact h.1.le

theorem Covers.le_upper (h : b.Covers x) : x ≤ b.upper * b.quarter := by
  rw [Covers] at h
  split at h
  · exact h.2
  · exact h.2.le

/-- The ends belong to an even significand only. -/
theorem Covers.lt_of_odd (h : b.Covers x) (hodd : b.significand % 2 = 1) :
    b.lower * b.quarter < x ∧ x < b.upper * b.quarter := by
  rwa [Covers, if_neg (by omega)] at h

/-- The test on a grid is exact. -/
theorem rounds_between_iff (b : Binary) (k : Int) (c : Nat) :
    b.rounds (Scale.between b.exponent k) c = true ↔ b.Covers (c * (10 : ℚ) ^ k) := by
  rw [rounds, Covers, quarter]
  split
  · simp only [Bool.and_eq_true, decide_eq_true_eq]
    exact and_congr (Scale.quarters_le_steps_iff ..) (Scale.steps_le_quarters_iff ..)
  · simp only [Bool.and_eq_true, decide_eq_true_eq, ← not_le]
    exact and_congr (Scale.steps_le_quarters_iff ..).not (Scale.quarters_le_steps_iff ..).not

/-! ## Shortest decimals -/

theorem self_eq_quarters (b : Binary) :
    b.significand * (2 : ℚ) ^ b.exponent = (4 * b.significand : ℕ) * b.quarter := by
  rw [quarter, zpow_sub₀ two_ne_zero]
  push_cast
  ring

theorem covers_self (b : Binary) : b.Covers (b.significand * (2 : ℚ) ^ b.exponent) := by
  have hquarter := b.quarter_pos
  have hupper : 4 * b.significand < b.upper := by
    rw [upper]
    omega
  rw [self_eq_quarters, Covers]
  split
  · have hlower : b.lower ≤ 4 * b.significand := by
      rw [lower]
      omega
    constructor <;> gcongr
  next hodd =>
    have hlower : b.lower < 4 * b.significand := by
      rw [lower]
      split <;> omega
    constructor <;> gcongr

theorem value_exact (b : Binary) : b.exact.value = b.significand * (2 : ℚ) ^ b.exponent := by
  rw [exact]
  split
  next hexponent =>
    obtain ⟨n, hn⟩ := Int.eq_ofNat_of_zero_le hexponent
    simp [Digits.value, hn]
  next hexponent =>
    obtain ⟨n, hn⟩ : ∃ n : Nat, b.exponent = -n := ⟨(-b.exponent).toNat, by omega⟩
    have hten : (10 : ℚ) = 5 * 2 := by norm_num
    simp only [Digits.value, hn, hten, neg_neg, Int.toNat_natCast, Nat.pow_eq, zpow_neg,
      zpow_natCast, mul_pow]
    push_cast
    field_simp

theorem covers_of_onGrid? {k : Int} {c : Nat} (h : b.onGrid? k = some c) :
    b.Covers (c * (10 : ℚ) ^ k) := by
  rw [← rounds_between_iff]
  simp only [onGrid?] at h
  split at h
  · split at h <;> cases h <;> assumption
  · cases h
    assumption
  · cases h
    assumption
  · cases h

theorem covers_search (b : Binary) (grids : Nat) (k : Int) : b.Covers (b.search grids k).value := by
  induction grids generalizing k with
  | zero =>
    rw [search, value_exact]
    exact b.covers_self
  | succ grids ih =>
    rw [search]
    split
    next c hgrid => exact covers_of_onGrid? hgrid
    · exact ih _

/-- The shortest decimal of a float rounds to it. -/
theorem covers_shortest (b : Binary) : b.Covers b.shortest.value := b.covers_search 22 b.coarsest

/-! ## Intervals do not meet -/

/-- What bits stand for: 53 binary places, all in use above the least exponent, and floats
twice as dense below a power of two except at the least exponents. -/
structure Proper (b : Binary) : Prop where
  significand_lt : b.significand < 2 * hiddenBit
  le_exponent : -1074 ≤ b.exponent
  hiddenBit_le : -1074 < b.exponent → hiddenBit ≤ b.significand
  denseBelow_iff : b.denseBelow = true ↔ b.significand = hiddenBit ∧ -1074 < b.exponent

theorem proper_ofBits (bits : Nat) : (ofBits bits).Proper := by
  have hfraction : bits % hiddenBit < hiddenBit := Nat.mod_lt _ (by decide)
  simp only [ofBits]
  split
  · exact ⟨by simp; omega, le_refl _, by simp, by simp⟩
  next hfield =>
    refine ⟨by simp; omega, by simp; omega, by simp, ?_⟩
    simp
    omega

/-- The interval ends where 53 places do at the latest, and its end is open there. -/
theorem Proper.upper_le (hb : b.Proper) : b.upper ≤ 2 * (4 * hiddenBit - 1) ∧
    (b.significand % 2 = 0 → b.upper < 2 * (4 * hiddenBit - 1)) := by
  have hlt := hb.significand_lt
  simp only [upper, hiddenBit] at *
  omega

/-- Above the least exponent all 53 places are in use at the lower end too. -/
theorem Proper.le_lower (hb : b.Proper) (hexponent : -1074 < b.exponent) :
    4 * hiddenBit - 1 ≤ b.lower := by
  have hhidden := hb.hiddenBit_le hexponent
  rw [lower]
  split
  next => omega
  next hdense =>
    have hne : b.significand ≠ hiddenBit :=
      fun heq => hdense (hb.denseBelow_iff.mpr ⟨heq, hexponent⟩)
    omega

/-- Intervals one after the other have no number in common when one of the ends that may touch
is open. -/
theorem Covers.lt_of_ends (h : b.Covers x) (h' : b'.Covers y)
    (hends : b.upper * b.quarter ≤ b'.lower * b'.quarter)
    (hopen : b.significand % 2 = 1 ∨ b'.significand % 2 = 1 ∨
      b.upper * b.quarter < b'.lower * b'.quarter) : x < y := by
  rcases hopen with hodd | hodd | hlt
  · exact ((h.lt_of_odd hodd).2.trans_le hends).trans_le h'.lower_le
  · exact (h.le_upper.trans hends).trans_lt (h'.lt_of_odd hodd).1
  · exact (h.le_upper.trans_lt hlt).trans_le h'.lower_le

theorem Covers.lt_of_exponent_lt (hb : b.Proper) (hb' : b'.Proper) (h : b.Covers x)
    (h' : b'.Covers y) (hlt : b.exponent < b'.exponent) : x < y := by
  have hquarter := b.quarter_pos
  have hleast := hb.le_exponent
  have hlower := hb'.le_lower (by omega)
  obtain ⟨hupper, hupper_even⟩ := hb.upper_le
  have hdouble : 2 * b.quarter ≤ b'.quarter := by
    rw [quarter, quarter, ← zpow_one_add₀ two_ne_zero]
    exact zpow_le_zpow_right₀ one_le_two (by omega)
  have hmiddle : (2 * (4 * hiddenBit - 1) : ℕ) * b.quarter ≤ b'.lower * b'.quarter := by
    rw [Nat.cast_mul, Nat.cast_ofNat, mul_right_comm, mul_comm]
    gcongr
  refine h.lt_of_ends h' (le_trans ?_ hmiddle) ?_
  · gcongr
  · rcases Nat.mod_two_eq_zero_or_one b.significand with heven | hodd
    · refine .inr (.inr (lt_of_lt_of_le ?_ hmiddle))
      gcongr
      exact hupper_even heven
    · exact .inl hodd

theorem Covers.lt_of_significand_lt (h : b.Covers x) (h' : b'.Covers y)
    (hexponent : b.exponent = b'.exponent) (hlt : b.significand < b'.significand) : x < y := by
  have hquarter := b.quarter_pos
  have hsame : b'.quarter = b.quarter := by rw [quarter, quarter, hexponent]
  have hends : b.upper ≤ b'.lower ∧
      (b.significand % 2 = 1 ∨ b'.significand % 2 = 1 ∨ b.upper < b'.lower) := by
    simp only [upper, lower]
    split <;> omega
  refine h.lt_of_ends h' ?_ ?_ <;> rw [hsame]
  · gcongr
    exact hends.1
  · refine hends.2.imp_right (Or.imp_right fun hlt => ?_)
    gcongr

theorem Covers.lt_of_lt (hb : b.Proper) (hb' : b'.Proper) (h : b.Covers x) (h' : b'.Covers y)
    (hlt : b.exponent < b'.exponent ∨
      b.exponent = b'.exponent ∧ b.significand < b'.significand) : x < y := by
  rcases hlt with hexponent | ⟨hexponent, hsignificand⟩
  · exact h.lt_of_exponent_lt hb hb' h' hexponent
  · exact h.lt_of_significand_lt h' hexponent hsignificand

/-- No number rounds to two floats. -/
theorem Covers.unique (hb : b.Proper) (hb' : b'.Proper) (h : b.Covers x) (h' : b'.Covers x) :
    b.significand = b'.significand ∧ b.exponent = b'.exponent := by
  have hnot : ¬(b.exponent < b'.exponent ∨
      b.exponent = b'.exponent ∧ b.significand < b'.significand) :=
    fun hlt => lt_irrefl x (h.lt_of_lt hb hb' h' hlt)
  have hnot' : ¬(b'.exponent < b.exponent ∨
      b'.exponent = b.exponent ∧ b'.significand < b.significand) :=
    fun hlt => lt_irrefl x (h'.lt_of_lt hb' hb h hlt)
  omega

/-- Exponent and significand follow each other in the bits; the hidden bit carries into the
exponent field. -/
theorem mod_eq_of_bits (bits : Nat) : ((bits % 0x8000000000000000 : ℕ) : ℤ) =
    ((ofBits bits).exponent + 1074) * hiddenBit + (ofBits bits).significand := by
  by_cases hfield : bits / hiddenBit % 2048 = 0
  · simp only [ofBits, hfield, ↓reduceIte]
    simp only [hiddenBit] at *
    omega
  · simp only [ofBits, hfield, ↓reduceIte]
    simp only [hiddenBit] at *
    omega

/-- A number rounds to the magnitude of one pattern of bits only. -/
theorem mod_eq_of_covers {bits bits' : Nat} (h : (ofBits bits).Covers x)
    (h' : (ofBits bits').Covers x) :
    bits % 0x8000000000000000 = bits' % 0x8000000000000000 := by
  obtain ⟨hsignificand, hexponent⟩ := h.unique (proper_ofBits bits) (proper_ofBits bits') h'
  have hbits := mod_eq_of_bits bits
  have hbits' := mod_eq_of_bits bits'
  rw [hsignificand, hexponent] at hbits
  omega

end Binary
end LiveStyle.Decimal
