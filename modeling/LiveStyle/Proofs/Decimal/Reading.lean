import LiveStyle.Decimal.Positional
import LiveStyle.Proofs.Decimal.Rounding
import Mathlib.Data.List.TakeWhile

/-! # Reading floats back

Every finite float has its own text.  Read as a number, the text of its magnitude is its
shortest decimal, which lies in its rounding interval and in no other's; the minus sign in front
tells the sign, because a magnitude begins with a digit.
-/
namespace LiveStyle.Decimal

/-! ## Numerals -/

structure Numeral (text : List Char) : Prop where
  digit_or_point : ∀ c ∈ text, c.isDigit = true ∨ c = '.'
  begins : ∃ c ∈ text.head?, c.isDigit = true

theorem Numeral.append {digits rest : List Char} (hdigits : ∀ c ∈ digits, c.isDigit = true)
    (hne : digits ≠ []) (hrest : ∀ c ∈ rest, c.isDigit = true ∨ c = '.') :
    Numeral (digits ++ rest) := by
  obtain ⟨c, digits, rfl⟩ := List.exists_cons_of_ne_nil hne
  exact ⟨List.forall_mem_append.mpr ⟨fun d hd => .inl (hdigits d hd), hrest⟩,
    c, rfl, hdigits c (by simp)⟩

/-- The number that digits with a point stand for. -/
def reading (text : List Char) : ℚ :=
  let fraction := (text.dropWhile (· ≠ '.')).tail
  Nat.ofDigitChars 10 (text.takeWhile (· ≠ '.') ++ fraction) 0 / (10 : ℚ) ^ fraction.length

theorem ne_point_of_digits {digits : List Char} (h : ∀ c ∈ digits, c.isDigit = true) :
    ∀ c ∈ digits, decide (c ≠ '.') = true := by
  intro c hc
  refine decide_eq_true fun hpoint => ?_
  exact absurd (hpoint ▸ h c hc) (by decide)

theorem reading_of_digits {digits : List Char} (h : ∀ c ∈ digits, c.isDigit = true) :
    reading digits = Nat.ofDigitChars 10 digits 0 := by
  have hpoint := ne_point_of_digits h
  rw [reading, List.takeWhile_eq_self_iff.mpr hpoint, List.dropWhile_eq_nil_iff.mpr hpoint]
  simp

theorem reading_of_point {whole : List Char} (h : ∀ c ∈ whole, c.isDigit = true)
    (fraction : List Char) : reading (whole ++ '.' :: fraction) =
      Nat.ofDigitChars 10 (whole ++ fraction) 0 / (10 : ℚ) ^ fraction.length := by
  have hpoint := ne_point_of_digits h
  rw [reading, List.takeWhile_append_of_pos hpoint, List.dropWhile_append_of_pos hpoint]
  simp

namespace Digits

variable {digits : List Char} {places : Nat}

/-! ## Positional texts -/

theorem isDigit_of_mem_zeros (n : Nat) : ∀ c ∈ List.replicate n '0', c.isDigit = true := by
  intro c hc
  rw [List.eq_of_mem_replicate hc]
  decide

theorem isDigit_of_mem_padded (hdigits : ∀ c ∈ digits, c.isDigit = true) (zeros : Nat) :
    ∀ c ∈ List.replicate zeros '0' ++ digits, c.isDigit = true :=
  List.forall_mem_append.mpr ⟨isDigit_of_mem_zeros zeros, hdigits⟩

theorem numeral_withPoint (hdigits : ∀ c ∈ digits, c.isDigit = true) :
    Numeral (withPoint digits places) := by
  have hpadded := isDigit_of_mem_padded hdigits (places + 1 - digits.length)
  refine .append (fun c hc => hpadded c (List.mem_of_mem_take hc)) ?_ ?_
  · rw [ne_eq, ← List.length_eq_zero_iff]
    simp only [List.length_take, List.length_append, List.length_replicate]
    omega
  · intro c hc
    rcases List.mem_cons.mp hc with rfl | hc
    · exact .inr rfl
    · exact .inl (hpadded c (List.mem_of_mem_drop hc))

/-- Padding and the point scale the number down by the places cut off. -/
theorem reading_withPoint (hdigits : ∀ c ∈ digits, c.isDigit = true) :
    reading (withPoint digits places) = Nat.ofDigitChars 10 digits 0 / (10 : ℚ) ^ places := by
  have hpadded := isDigit_of_mem_padded hdigits (places + 1 - digits.length)
  rw [withPoint, reading_of_point fun c hc => hpadded c (List.mem_of_mem_take hc),
    List.take_append_drop, Nat.ofDigitChars_append, Nat.ofDigitChars_replicate_zero]
  congr 2
  simp only [List.length_drop, List.length_append, List.length_replicate]
  omega

variable (d : Digits)

theorem isDigit_of_mem_coefficient : ∀ c ∈ Nat.toDigits 10 d.coefficient, c.isDigit = true :=
  fun _ hc => Nat.isDigit_of_mem_toDigits (by decide) (by decide) hc

theorem numeral_positional : Numeral d.positional := by
  simp only [positional]
  split
  · exact .append d.isDigit_of_mem_coefficient Nat.toDigits_ne_nil fun c hc =>
      .inl (isDigit_of_mem_zeros _ c hc)
  · exact numeral_withPoint d.isDigit_of_mem_coefficient

theorem reading_positional : reading d.positional = d.value := by
  simp only [positional, value]
  split
  next hexponent =>
    obtain ⟨n, hn⟩ := Int.eq_ofNat_of_zero_le hexponent
    rw [reading_of_digits, Nat.ofDigitChars_append, Nat.ofDigitChars_replicate_zero,
      Nat.ofDigitChars_toDigits (by decide) (by decide), hn]
    · simp [mul_comm]
    · exact List.forall_mem_append.mpr ⟨d.isDigit_of_mem_coefficient, isDigit_of_mem_zeros _⟩
  next hexponent =>
    obtain ⟨n, hn⟩ : ∃ n : Nat, d.exponent = -n := ⟨(-d.exponent).toNat, by omega⟩
    rw [reading_withPoint d.isDigit_of_mem_coefficient,
      Nat.ofDigitChars_toDigits (by decide) (by decide), hn]
    simp [div_eq_mul_inv]

end Digits

/-! ## Magnitudes -/

variable {x y : Float}

theorem numeral_magnitude (x : Float) : Numeral (magnitude x) := by
  simp only [magnitude]
  split
  · exact ⟨by simp, '0', rfl, by decide⟩
  · exact Digits.numeral_positional _

/-- The text of a magnitude rounds to it. -/
theorem covers_reading_magnitude (x : Float) :
    (Binary.ofBits x.toBits.toNat).Covers (reading (magnitude x)) := by
  simp only [magnitude]
  split
  next hzero =>
    have hself := (Binary.ofBits x.toBits.toNat).covers_self
    have hread : Nat.ofDigitChars 10 ['0'] 0 = 0 := by decide
    rw [hzero] at hself
    rw [reading_of_digits (by simp), hread]
    simpa using hself
  · rw [Digits.reading_positional]
    exact Binary.covers_shortest _

theorem magnitude_bits (h : magnitude x = magnitude y) :
    x.toBits.toNat % 0x8000000000000000 = y.toBits.toNat % 0x8000000000000000 :=
  Binary.mod_eq_of_covers (covers_reading_magnitude x) (h ▸ covers_reading_magnitude y)

/-! ## Signs -/

theorem toBits_injective (h : x.toBits = y.toBits) : x = y := by
  rcases x with ⟨⟨bits, valid⟩⟩
  rcases y with ⟨⟨bits', valid'⟩⟩
  cases h
  rfl

/-- The sign bit and the others are all bits. -/
theorem eq_of_sign_of_magnitude (hsign : isNegative x = isNegative y)
    (hmagnitude : magnitude x = magnitude y) : x = y := by
  have hbits := magnitude_bits hmagnitude
  have hx := x.toBits.toNat_lt
  have hy := y.toBits.toNat_lt
  simp only [isNegative, decide_eq_decide] at hsign
  exact toBits_injective (UInt64.toNat_inj.mp (by omega))

theorem not_special_of_isFinite (h : x.isFinite = true) : x.isNaN = false ∧ x.isInf = false := by
  rw [Float.isFinite, Float.Model.isFinite] at h
  rw [Float.isNaN, Float.Model.isNaN, Float.isInf, Float.Model.isInf]
  cases hunpack : x.toModel.unpack with
  | infinity | notANumber =>
    rw [hunpack] at h
    cases h
  | zero | finite => exact ⟨rfl, rfl⟩

theorem chars_of_isFinite (h : x.isFinite = true) :
    chars x = if isNegative x then '-' :: magnitude x else magnitude x := by
  obtain ⟨hnan, hinf⟩ := not_special_of_isFinite h
  simp only [chars, hnan, hinf, Bool.false_eq_true, ↓reduceIte]

/-- A finite float is a numeral behind at most one minus sign. -/
theorem exists_numeral (h : x.isFinite = true) :
    ∃ numeral, Numeral numeral ∧ (chars x = numeral ∨ chars x = '-' :: numeral) := by
  refine ⟨magnitude x, numeral_magnitude x, ?_⟩
  rw [chars_of_isFinite h]
  split
  · exact .inr rfl
  · exact .inl rfl

theorem magnitude_ne_minus (x : Float) (rest : List Char) : magnitude x ≠ '-' :: rest := by
  intro heq
  obtain ⟨c, hc, hdigit⟩ := (numeral_magnitude x).begins
  rw [heq] at hc
  cases hc
  exact absurd hdigit (by decide)

/-- Finite floats with one text have the same bits. -/
theorem chars_injective (hx : x.isFinite = true) (hy : y.isFinite = true)
    (h : chars x = chars y) : x = y := by
  rw [chars_of_isFinite hx, chars_of_isFinite hy] at h
  split at h <;> split at h
  next hsign hsign' =>
    exact eq_of_sign_of_magnitude (hsign.trans hsign'.symm) (List.tail_eq_of_cons_eq h)
  next => exact absurd h.symm (magnitude_ne_minus y _)
  next => exact absurd h (magnitude_ne_minus x _)
  next hsign hsign' => exact eq_of_sign_of_magnitude (by simp_all) h

end LiveStyle.Decimal
