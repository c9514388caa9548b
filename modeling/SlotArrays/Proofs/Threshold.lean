import Mathlib.Algebra.Order.Floor.Semifield
import Mathlib.Data.Nat.Bitwise
import Mathlib.Data.Rat.Floor
import Mathlib.Tactic.FieldSimp
import Mathlib.Tactic.Linarith
import SlotArrays.LoadFactor

/-! Thresholds are exact.

The product that a threshold is taken from is rounded twice, each time to 53
significant bits. For a slot count that is a power of two neither rounding loses
anything: the count has one significant bit and the product as many as the load
factor, 24 at most. So the threshold is the whole part of the rational product
(`threshold_eq_floor`). What the tables need of it follows from the rational
inequalities: it is at most the slot count, less than that below a load factor
of exactly 1, and a doubled slot count has at least the doubled threshold. -/
namespace SlotArrays

/-! ### Exact rounding -/

namespace Binary

/-- The number that is meant. -/
def value (x : Binary) : ℚ := x.mantissa * 2 ^ x.exponent

theorem value_ofNat (n : Nat) : (ofNat n).value = n := by
  simp [value, ofNat]

theorem value_mul (x y : Binary) : (x.mul y).value = x.value * y.value := by
  simp only [value, mul, Nat.cast_mul, zpow_add₀ (two_ne_zero' ℚ)]
  ring

theorem floor_eq (x : Binary) : x.floor = ⌊x.value⌋₊ := by
  unfold floor value
  split
  · obtain ⟨n, hn⟩ := Int.eq_ofNat_of_zero_le ‹_›
    rw [hn, Int.toNat_natCast, Nat.shiftLeft_eq, zpow_natCast]
    exact_mod_cast (Nat.floor_natCast (R := ℚ) _).symm
  · obtain ⟨n, hn⟩ := Int.eq_ofNat_of_zero_le (show 0 ≤ -x.exponent by omega)
    rw [hn, Int.toNat_natCast, Nat.shiftRight_eq_div_pow, show x.exponent = -(n : Int) by omega,
      zpow_neg, zpow_natCast, ← div_eq_mul_inv]
    exact_mod_cast (Nat.floor_div_eq_div (K := ℚ) _ _).symm

theorem width_le {n bits : Nat} (h : n < 2 ^ bits) : width n ≤ bits := by
  unfold width
  split
  · exact Nat.zero_le _
  · exact (Nat.log2_lt ‹_›).mpr h

theorem roundShift_of_dvd {n k : Nat} (h : 2 ^ k ∣ n) : roundShift n k = n / 2 ^ k := by
  simp [roundShift, Nat.one_shiftLeft, Nat.mod_eq_zero_of_dvd h]

/-- A mantissa of few significant bits loses zeros only. -/
theorem roundTo_eq {x : Binary} {a c : Nat} (precision : Nat) (hx : x.mantissa = 2 ^ a * c)
    (hc : c < 2 ^ precision) :
    ∃ b, (x.roundTo precision).mantissa = 2 ^ b * c ∧ (x.roundTo precision).value = x.value := by
  have hwidth : width x.mantissa ≤ a + precision := width_le <| by
    rw [hx, pow_add]
    exact Nat.mul_lt_mul_of_pos_left hc (Nat.two_pow_pos a)
  obtain ⟨excess, hexcess⟩ : ∃ n, width x.mantissa - precision = n := ⟨_, rfl⟩
  obtain ⟨b, rfl⟩ := Nat.exists_eq_add_of_le (show excess ≤ a by omega)
  have hsplit : x.mantissa = 2 ^ excess * (2 ^ b * c) := by rw [hx, pow_add, mul_assoc]
  have hmantissa : (x.roundTo precision).mantissa = 2 ^ b * c := by
    simp only [roundTo, hexcess]
    rw [roundShift_of_dvd ⟨_, hsplit⟩, hsplit, Nat.mul_div_cancel_left _ (Nat.two_pow_pos _)]
  refine ⟨b, hmantissa, ?_⟩
  have hexponent : (x.roundTo precision).exponent = x.exponent + excess := by
    simp only [roundTo, hexcess]
  rw [value, hmantissa, hexponent, value, hsplit, zpow_add₀ (two_ne_zero' ℚ), zpow_natCast]
  push_cast
  ring

end Binary

/-! ### Load factors as rational numbers -/

namespace Single

theorem significand_lt (x : Single) : x.significand < 2 ^ 24 := by
  have : x.fraction < 2 ^ 23 := Nat.mod_lt _ (by decide)
  unfold significand
  split <;> omega

/-- The pattern of a load factor: no sign, and at most the pattern of 1. -/
theorem magnitude_of_isFraction {x : Single} (h : x.isFraction = true) :
    x.negative = false ∧ 0 < x.magnitude ∧ x.magnitude ≤ 127 * 2 ^ 23 := by
  simp only [isFraction, lt, le, Bool.and_eq_true, decide_eq_true_eq] at h
  obtain ⟨⟨_, hlow⟩, ⟨_, hhigh⟩⟩ := h
  have h0 : zero.rank = 0 := by decide
  have h1 : one.rank = 127 * 2 ^ 23 := by decide
  rw [h0, rank] at hlow
  rw [h1, rank] at hhigh
  cases hneg : x.negative
  · rw [hneg] at hlow hhigh
    simp only [Bool.false_eq_true, if_false] at hlow hhigh
    exact ⟨rfl, by omega, by omega⟩
  · rw [hneg] at hlow
    simp only [if_true] at hlow
    omega

theorem negative_iff (x : Single) : x.negative = true ↔ 2 ^ 31 ≤ x.bits.toNat := by
  have hlt := x.bits.toNat_lt
  have htop : x.bits.toNat &&& 2 ^ 31 = 2 ^ 31 * (x.bits.toNat / 2 ^ 31) := by
    rw [Nat.and_two_pow, Nat.toNat_testBit, Nat.mod_eq_of_lt (by omega), Nat.mul_comm]
  have hbits : x.negative = true ↔ ¬ x.bits.toNat &&& 2 ^ 31 = 0 := by
    rw [negative, bne_iff_ne, Ne, ← UInt32.toNat_inj, UInt32.toNat_and]
    rfl
  rw [hbits, htop]
  omega

theorem magnitude_eq (x : Single) : x.magnitude = x.bits.toNat % 2 ^ 31 := by
  rw [magnitude, UInt32.toNat_and]
  exact Nat.and_two_pow_sub_one_eq_mod _ 31

theorem magnitude_of_not_negative {x : Single} (h : x.negative = false) :
    x.magnitude = x.bits.toNat := by
  rw [← Bool.not_eq_true, negative_iff] at h
  rw [magnitude_eq, Nat.mod_eq_of_lt (by omega)]

/-- Patterns without a sign are told by their magnitude. -/
theorem eq_of_magnitude {x y : Single} (hx : x.negative = false) (hy : y.negative = false)
    (h : x.magnitude = y.magnitude) : x = y := by
  rw [magnitude_of_not_negative hx, magnitude_of_not_negative hy] at h
  cases x
  cases y
  exact congrArg Single.mk (UInt32.toNat_inj.mp h)

end Single

namespace LoadFactor
variable (f : LoadFactor)

/-- The load factor as a rational number. -/
def value : ℚ := f.binary.value

/-- A load factor is its significand under a power of two that is as great, and equal to it
for the load factor 1 only. -/
theorem exists_exponent : ∃ n : Nat, f.single.exponent = -(n : Int) ∧ 0 < f.single.significand ∧
    f.single.significand ≤ 2 ^ n ∧ (f.single.significand = 2 ^ n → f.single = .one) := by
  obtain ⟨hneg, hpos, hle⟩ := Single.magnitude_of_isFraction f.isFraction
  have hsplit : f.single.exponentField * 2 ^ 23 + f.single.fraction = f.single.magnitude :=
    Nat.div_add_mod' _ _
  have hfraction : f.single.fraction < 2 ^ 23 := Nat.mod_lt _ (by decide)
  obtain ⟨n, hn⟩ : ∃ n, max f.single.exponentField 1 + n = 150 :=
    ⟨150 - max f.single.exponentField 1, by omega⟩
  refine ⟨n, by rw [Single.exponent]; omega, by unfold Single.significand; split <;> omega, ?_⟩
  by_cases hfield : f.single.exponentField = 127
  · have hsignificand : f.single.significand = 2 ^ 23 := by
      rw [Single.significand, if_neg (by omega)]
      omega
    have h23 : n = 23 := by omega
    subst h23
    refine ⟨hsignificand.le, fun _ => ?_⟩
    have hone : Single.one.magnitude = 127 * 2 ^ 23 := by decide
    exact Single.eq_of_magnitude hneg (by decide) (by omega)
  · have hlt : f.single.significand < 2 ^ n :=
      f.single.significand_lt.trans_le (Nat.pow_le_pow_right (by decide) (by omega))
    exact ⟨hlt.le, fun h => absurd h hlt.ne⟩

theorem value_pos : 0 < f.value := by
  obtain ⟨n, hn, hpos, _⟩ := f.exists_exponent
  have : (0 : ℚ) < f.single.significand := by exact_mod_cast hpos
  exact mul_pos this (zpow_pos two_pos _)

theorem value_le_one : f.value ≤ 1 := by
  obtain ⟨n, hn, _, hle, _⟩ := f.exists_exponent
  have : (f.single.significand : ℚ) ≤ 2 ^ n := by exact_mod_cast hle
  simp only [value, Binary.value, binary, hn, zpow_neg, zpow_natCast, ← div_eq_mul_inv]
  exact (div_le_one (by positivity)).mpr this

/-- The load factor is 1 for one pattern only. -/
theorem value_eq_one : f.value = 1 ↔ f.single = .one := by
  constructor
  · intro h
    obtain ⟨n, hn, _, _, hone⟩ := f.exists_exponent
    simp only [value, Binary.value, binary, hn, zpow_neg, zpow_natCast, ← div_eq_mul_inv] at h
    rw [div_eq_one_iff_eq (by positivity)] at h
    exact hone (by exact_mod_cast h)
  · intro h
    rw [value, binary, h, show Single.significand .one = 2 ^ 23 by decide,
      show Single.exponent .one = -23 by decide]
    norm_num [Binary.value]

/-! ### Thresholds -/

/-- The rounded product that the threshold of so many slots is taken from. -/
def product (slots : Nat) : Binary :=
  (((Binary.ofNat slots).roundTo precision).mul f.binary).roundTo precision

theorem threshold_eq_min (slots : Nat) :
    f.threshold slots = min (f.product slots).floor (sizeLimit - 1) := rfl

/-- Neither rounding changes anything. -/
theorem value_product (k : Nat) : ((Binary.ofNat (2 ^ k)).roundTo precision).value = 2 ^ k ∧
    (f.product (2 ^ k)).value = 2 ^ k * f.value := by
  obtain ⟨a, ha, hcount⟩ := Binary.roundTo_eq (x := Binary.ofNat (2 ^ k)) (a := k)
    (c := 1) precision (Nat.mul_one _).symm (by decide)
  have hslots : ((Binary.ofNat (2 ^ k)).roundTo precision).value = 2 ^ k := by
    rw [hcount, Binary.value_ofNat, Nat.cast_pow, Nat.cast_ofNat]
  have hproduct : (((Binary.ofNat (2 ^ k)).roundTo precision).mul f.binary).mantissa =
      2 ^ a * f.single.significand := by
    rw [Binary.mul, ha, Nat.mul_one]
    rfl
  obtain ⟨_, _, hvalue⟩ := Binary.roundTo_eq precision hproduct
    (f.single.significand_lt.trans (by decide))
  refine ⟨hslots, ?_⟩
  rw [product, hvalue, Binary.value_mul, hslots, value]

/-- The whole part of the product is a size. -/
theorem floor_le {k : Nat} (hk : k < 64) : ⌊2 ^ k * f.value⌋₊ ≤ sizeLimit - 1 := by
  have hle : ⌊2 ^ k * f.value⌋₊ ≤ 2 ^ 63 := by
    apply Nat.floor_le_of_le
    calc 2 ^ k * f.value ≤ 2 ^ k * 1 := by gcongr; exact f.value_le_one
      _ = 2 ^ k := mul_one _
      _ ≤ 2 ^ 63 := by gcongr <;> [norm_num; omega]
      _ = ((2 ^ 63 : Nat) : ℚ) := by norm_num
  exact hle.trans (by decide)

/-- **The threshold is the whole part of the product, computed exactly.** -/
theorem threshold_eq_floor {k : Nat} (hk : k < 64) : f.threshold (2 ^ k) = ⌊2 ^ k * f.value⌋₊ := by
  rw [threshold_eq_min, Binary.floor_eq, (f.value_product k).2]
  exact Nat.min_eq_left (f.floor_le hk)

theorem threshold_le {k : Nat} (hk : k < 64) : f.threshold (2 ^ k) ≤ 2 ^ k := by
  rw [threshold_eq_floor f hk]
  apply Nat.floor_le_of_le
  push_cast
  exact mul_le_of_le_one_right (by positivity) f.value_le_one

theorem threshold_lt {k : Nat} (hk : k < 64) (h : f.single ≠ .one) : f.threshold (2 ^ k) < 2 ^ k := by
  have hlt : f.value < 1 := f.value_le_one.lt_of_ne fun he => h (f.value_eq_one.mp he)
  rw [threshold_eq_floor f hk, Nat.floor_lt (by have := f.value_pos; positivity)]
  push_cast
  exact mul_lt_of_lt_one_right (by positivity) hlt

/-- Twice the slots have at least twice the threshold. -/
theorem two_mul_threshold_le {k : Nat} (hk : k + 1 < 64) :
    2 * f.threshold (2 ^ k) ≤ f.threshold (2 ^ (k + 1)) := by
  have hpos : 0 ≤ 2 ^ k * f.value := by have := f.value_pos; positivity
  rw [threshold_eq_floor f hk, threshold_eq_floor f (by omega), Nat.le_floor_iff (by
    have := f.value_pos
    positivity)]
  push_cast
  calc 2 * (⌊2 ^ k * f.value⌋₊ : ℚ)
    _ ≤ 2 * (2 ^ k * f.value) := by gcongr; exact Nat.floor_le hpos
    _ = 2 ^ (k + 1) * f.value := by ring

theorem threshold_mono {j k : Nat} (hjk : j ≤ k) (hk : k < 64) :
    f.threshold (2 ^ j) ≤ f.threshold (2 ^ k) := by
  have := f.value_pos
  rw [threshold_eq_floor f (hjk.trans_lt hk), threshold_eq_floor f hk]
  gcongr
  norm_num

/-- Below `2 ^ (-63)` the greatest slot count there is has no room for an entry. -/
theorem threshold_last : f.threshold (2 ^ 63) = 0 ↔ f.value < 2 ^ (-63 : ℤ) := by
  rw [threshold_eq_floor f (by decide), Nat.floor_eq_zero, zpow_neg, ← one_div,
    lt_div_iff₀ (by positivity), mul_comm]
  norm_cast

end LoadFactor
end SlotArrays
