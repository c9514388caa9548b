import Mathlib.Algebra.Order.Group.Basic
import Mathlib.Order.Monotone.Odd
import SlotArrays.Config
import SlotArrays.Proofs.Threshold

/-! Load factors as numbers.

`number?` reads a pattern as the 32-bit format does: sign, exponent field and fraction. The
patterns stand on the number line in the order of their ranks (`atRank_lt_atRank`), so
comparing patterns is comparing numbers. A configuration is valid when its load factor is a
number above 0 and at most 1, and from there on nothing is rounded: the load factor, a slot
count and their product are numbers of the 64-bit format, and a threshold is the whole part
of the product (`threshold_exact`). -/
namespace SlotArrays
namespace Single

/-! ### Patterns as numbers -/

/-- The number that a pattern stands for. The exponent field is 127 for the numbers from 1 up
to 2; a field of 0 goes without the leading bit, and a field of ones only is no finite number. -/
def number? (x : Single) : Option ℚ :=
  let sign : ℚ := if 2 ^ 31 ≤ x.bits.toNat then -1 else 1
  let field : Nat := x.bits.toNat / 2 ^ 23 % 2 ^ 8
  let fraction : ℚ := (x.bits.toNat % 2 ^ 23 : Nat) / 2 ^ 23
  if field = 255 then none
  else if field = 0 then some (sign * fraction * 2 ^ (-126 : ℤ))
  else some (sign * (1 + fraction) * 2 ^ ((field : ℤ) - 127))

/-- The number with a given magnitude and no sign. -/
def ofMagnitude (m : Nat) : ℚ :=
  ((if m / 2 ^ 23 = 0 then m % 2 ^ 23 else 2 ^ 23 + m % 2 ^ 23 : Nat) : ℚ) *
    2 ^ (((max (m / 2 ^ 23) 1 : Nat) : ℤ) - 150)

/-- The number at a place of the number line. -/
def atRank (n : ℤ) : ℚ := n.sign * ofMagnitude n.natAbs

/-- From one magnitude to the next the number grows by one unit of its last place. -/
theorem ofMagnitude_succ (m : Nat) :
    ofMagnitude (m + 1) = ofMagnitude m + 2 ^ (((max (m / 2 ^ 23) 1 : Nat) : ℤ) - 150) := by
  have hlt : m % 2 ^ 23 < 2 ^ 23 := Nat.mod_lt _ (by decide)
  unfold ofMagnitude
  by_cases hlast : m % 2 ^ 23 + 1 = 2 ^ 23
  · -- The fraction is used up, and the exponent field goes on by one.
    rw [show (m + 1) / 2 ^ 23 = m / 2 ^ 23 + 1 by omega, show (m + 1) % 2 ^ 23 = 0 by omega,
      show m % 2 ^ 23 = 2 ^ 23 - 1 by omega, if_neg (Nat.succ_ne_zero _)]
    split
    · rw [‹m / 2 ^ 23 = 0›]
      norm_num
    · rw [Nat.max_eq_left (by omega), Nat.max_eq_left (by omega), Nat.cast_succ,
        show ((m / 2 ^ 23 : Nat) : ℤ) + 1 - 150 = (m / 2 ^ 23 : Nat) - 150 + 1 by ring,
        zpow_add_one₀ two_ne_zero]
      norm_num
      ring
  · rw [show (m + 1) / 2 ^ 23 = m / 2 ^ 23 by omega,
      show (m + 1) % 2 ^ 23 = m % 2 ^ 23 + 1 by omega]
    split <;> push_cast <;> ring

theorem strictMono_ofMagnitude : StrictMono ofMagnitude := by
  refine strictMono_nat_of_lt_succ fun m => ?_
  rw [ofMagnitude_succ]
  exact lt_add_of_pos_right _ (zpow_pos two_pos _)

theorem atRank_neg (n : ℤ) : atRank (-n) = -atRank n := by
  rw [atRank, atRank, Int.sign_neg, Int.natAbs_neg]
  push_cast
  ring

theorem atRank_natCast (m : Nat) : atRank m = ofMagnitude m := by
  rcases Nat.eq_zero_or_pos m with rfl | hm
  · simp [atRank, ofMagnitude]
  · rw [atRank, Int.sign_natCast_of_ne_zero hm.ne', Int.natAbs_natCast, Int.cast_one, one_mul]

/-- Ranks and numbers are in the same order. -/
theorem atRank_lt_atRank {m n : ℤ} : atRank m < atRank n ↔ m < n := by
  have hmono : StrictMono atRank := by
    refine strictMono_of_odd_strictMonoOn_nonneg atRank_neg fun a ha b hb hab => ?_
    lift a to ℕ using ha
    lift b to ℕ using hb
    rw [atRank_natCast, atRank_natCast]
    exact strictMono_ofMagnitude (by omega)
  exact hmono.lt_iff_lt

theorem atRank_le_atRank {m n : ℤ} : atRank m ≤ atRank n ↔ m ≤ n := by
  rw [← not_lt, atRank_lt_atRank, not_lt]

theorem number?_eq (x : Single) :
    x.number? = if x.exponentField = 255 then none else some (atRank x.rank) := by
  have hfield : x.exponentField = x.bits.toNat / 2 ^ 23 % 2 ^ 8 := by
    show x.magnitude / 2 ^ 23 = _
    rw [magnitude_eq]
    omega
  have hrank : atRank x.rank =
      (if 2 ^ 31 ≤ x.bits.toNat then -1 else 1) * ofMagnitude x.magnitude := by
    simp only [rank, negative_iff]
    split
    · rw [atRank_neg, atRank_natCast, neg_one_mul]
    · rw [atRank_natCast, one_mul]
  have hfraction : x.magnitude % 2 ^ 23 = x.bits.toNat % 2 ^ 23 := by
    rw [magnitude_eq]
    omega
  rw [hrank, ofMagnitude, show x.magnitude / 2 ^ 23 = x.exponentField from rfl, hfraction, number?,
    ← hfield]
  -- The fraction counts in units of its last place, 23 places below the leading bit.
  have hunit (e : ℤ) : (2 : ℚ) ^ (e + 23) = 2 ^ 23 * 2 ^ e := by
    rw [zpow_add₀ two_ne_zero, mul_comm]
    rfl
  split
  · rfl
  · by_cases hzero : x.exponentField = 0
    · rw [if_pos hzero, if_pos hzero, hzero,
        show (-126 : ℤ) = ((max 0 1 : Nat) : ℤ) - 150 + 23 from rfl, hunit]
      refine congrArg some ?_
      ring
    · rw [if_neg hzero, if_neg hzero, Nat.max_eq_left (by omega),
        show (x.exponentField : ℤ) - 127 = x.exponentField - 150 + 23 by ring, hunit]
      refine congrArg some ?_
      push_cast
      ring

/-- A pattern that is a number stands at a place of the number line. -/
theorem atRank_of_number? {x : Single} {q : ℚ} (h : x.number? = some q) :
    x.isNaN = false ∧ q = atRank x.rank := by
  rw [number?_eq] at h
  split at h
  · cases h
  · refine ⟨?_, (Option.some.inj h).symm⟩
    rw [isNaN, beq_false_of_ne ‹_›, Bool.false_and]

section Comparing
variable {x y : Single} {p q : ℚ}

theorem lt_iff (hx : x.number? = some p) (hy : y.number? = some q) : x.lt y = true ↔ p < q := by
  obtain ⟨hxn, rfl⟩ := atRank_of_number? hx
  obtain ⟨hyn, rfl⟩ := atRank_of_number? hy
  simp [lt, hxn, hyn, atRank_lt_atRank]

theorem le_iff (hx : x.number? = some p) (hy : y.number? = some q) : x.le y = true ↔ p ≤ q := by
  obtain ⟨hxn, rfl⟩ := atRank_of_number? hx
  obtain ⟨hyn, rfl⟩ := atRank_of_number? hy
  simp [le, hxn, hyn, atRank_le_atRank]

end Comparing

theorem number?_zero : zero.number? = some 0 := by
  rw [number?_eq, if_neg (by decide), show zero.rank = 0 by decide, atRank, Int.sign_zero]
  simp

theorem number?_one : one.number? = some 1 := by
  rw [number?_eq, if_neg (by decide), show one.rank = (127 * 2 ^ 23 : Nat) by decide,
    atRank_natCast]
  norm_num [ofMagnitude]

/-- A pattern passes for a load factor when it is a number above 0 and at most 1. -/
theorem isFraction_iff (x : Single) :
    x.isFraction = true ↔ ∃ q, x.number? = some q ∧ 0 < q ∧ q ≤ 1 := by
  constructor
  · intro h
    obtain ⟨_, _, hle⟩ := magnitude_of_isFraction h
    have hfield : x.exponentField ≠ 255 := by
      show x.magnitude / 2 ^ 23 ≠ 255
      omega
    have hnumber : x.number? = some (atRank x.rank) := by rw [number?_eq, if_neg hfield]
    rw [isFraction, Bool.and_eq_true, lt_iff number?_zero hnumber, le_iff hnumber number?_one] at h
    exact ⟨_, hnumber, h⟩
  · intro h
    obtain ⟨q, hnumber, h⟩ := h
    rwa [isFraction, Bool.and_eq_true, lt_iff number?_zero hnumber, le_iff hnumber number?_one]

end Single

/-! ### Numbers of the 64-bit format -/

/-- A number that is not negative and that 64-bit floating point has. -/
def IsDouble (v : ℚ) : Prop :=
  ∃ (m : Nat) (e : ℤ), m < 2 ^ 53 ∧ -1074 ≤ e ∧ e ≤ 971 ∧ v = m * 2 ^ e

namespace LoadFactor
variable (f : LoadFactor)

theorem number?_single : f.single.number? = some f.value := by
  obtain ⟨hneg, _, hle⟩ := Single.magnitude_of_isFraction f.isFraction
  have hfield : f.single.exponentField ≠ 255 := by
    show f.single.magnitude / 2 ^ 23 ≠ 255
    omega
  have hrank : f.single.rank = f.single.magnitude := by rw [Single.rank, hneg]; rfl
  rw [Single.number?_eq, if_neg hfield, hrank, Single.atRank_natCast]
  rfl

/-- The exponents of load factors, from the least one of the format to that of 1. -/
theorem exponent_range : -149 ≤ f.single.exponent ∧ f.single.exponent ≤ -23 := by
  obtain ⟨_, _, hle⟩ := Single.magnitude_of_isFraction f.isFraction
  have hfield : f.single.exponentField ≤ 127 := by
    show f.single.magnitude / 2 ^ 23 ≤ 127
    omega
  unfold Single.exponent
  omega

/-- A load factor times a slot count has the bits of the load factor, further up. -/
theorem isDouble_mul {k : Nat} (hk : k < 64) : IsDouble (2 ^ k * f.value) := by
  obtain ⟨hlow, hhigh⟩ := f.exponent_range
  refine ⟨f.single.significand, k + f.single.exponent, f.single.significand_lt.trans (by decide),
    by omega, by omega, ?_⟩
  rw [zpow_add₀ two_ne_zero, zpow_natCast]
  show 2 ^ k * ((f.single.significand : ℚ) * 2 ^ f.single.exponent) = _
  ring

theorem threshold_mono_factor {g : LoadFactor} (h : f.value ≤ g.value) {k : Nat} (hk : k < 64) :
    f.threshold (2 ^ k) ≤ g.threshold (2 ^ k) := by
  rw [f.threshold_eq_floor hk, g.threshold_eq_floor hk]
  gcongr

theorem threshold_eq_slots {k : Nat} (hk : k < 64) : f.threshold (2 ^ k) = 2 ^ k ↔ f.value = 1 := by
  rw [value_eq_one]
  constructor
  · intro hfull
    by_contra hone
    exact (f.threshold_lt hk hone).ne hfull
  · intro hone
    rw [f.threshold_eq_floor hk, f.value_eq_one.mpr hone, mul_one]
    exact_mod_cast Nat.floor_natCast (R := ℚ) (2 ^ k)

/-- What comes of a load factor of the value `q` and `2 ^ k` slots. -/
structure Exact (f : LoadFactor) (q : ℚ) (k : Nat) : Prop where
  /-- The load factor, the slot count and their product are numbers of the 64-bit format, and
  the whole part of the product is a size: no conversion loses anything. -/
  factor : IsDouble q ∧ f.binary.value = q
  slots : IsDouble (2 ^ k) ∧ ((Binary.ofNat (2 ^ k)).roundTo precision).value = 2 ^ k
  product : IsDouble (2 ^ k * q) ∧ (f.product (2 ^ k)).value = 2 ^ k * q
  size : ⌊2 ^ k * q⌋₊ ≤ sizeLimit - 1
  floor : f.threshold (2 ^ k) = ⌊2 ^ k * q⌋₊
  le : f.threshold (2 ^ k) ≤ 2 ^ k
  full : f.threshold (2 ^ k) = 2 ^ k ↔ q = 1
  monoSlots : ∀ j ≤ k, f.threshold (2 ^ j) ≤ f.threshold (2 ^ k)
  monoFactor : ∀ (g : LoadFactor) (p : ℚ), g.single.number? = some p → q ≤ p →
    f.threshold (2 ^ k) ≤ g.threshold (2 ^ k)
  /-- As long as twice the slots are a size. -/
  double : 2 * 2 ^ k < sizeLimit → 2 * f.threshold (2 ^ k) ≤ f.threshold (2 * 2 ^ k)

theorem exact {k : Nat} (hk : k < 64) : Exact f f.value k where
  factor := ⟨by simpa using f.isDouble_mul (k := 0) (by decide), rfl⟩
  slots := ⟨⟨1, k, by decide, by omega, by omega, by simp⟩, (f.value_product k).1⟩
  product := ⟨f.isDouble_mul hk, (f.value_product k).2⟩
  size := f.floor_le hk
  floor := f.threshold_eq_floor hk
  le := f.threshold_le hk
  full := f.threshold_eq_slots hk
  monoSlots _ hjk := f.threshold_mono hjk hk
  monoFactor g p hp hle := by
    obtain rfl := Option.some.inj (g.number?_single.symm.trans hp)
    exact f.threshold_mono_factor hle hk
  double hsize := by
    have hlimit : sizeLimit = 2 ^ 64 := by decide
    rw [← pow_succ', hlimit, Nat.pow_lt_pow_iff_right (by decide)] at hsize
    rw [← pow_succ']
    exact f.two_mul_threshold_le hsize

end LoadFactor

/-! ### Configurations -/

/-- **A configuration is valid when its load factor is a number above 0 and at most 1, and
thresholds are computed exactly.** What is refused is named in the refusal. -/
theorem threshold_exact (c : Config) :
    (c.validate = .ok () ↔ ∃ q, c.loadFactor.number? = some q ∧ 0 < q ∧ q ≤ 1) ∧
    (c.validate = .ok () ∨ c.validate = .error (.invalidLoadFactor c.loadFactor)) ∧
    ∀ q, c.loadFactor.number? = some q → 0 < q → q ≤ 1 →
      ∃ f : LoadFactor, f.single = c.loadFactor ∧ c.resolve = .ok (slotCount c.capacity, f) ∧
        ∀ k < 64, f.Exact q k := by
  have hiff := c.loadFactor.isFraction_iff
  by_cases h : c.loadFactor.isFraction = true
  · have hvalid : LoadFactor.ofSingle c.loadFactor = .ok ⟨c.loadFactor, h⟩ := dif_pos h
    have hok : c.validate = .ok () := by rw [Config.validate, hvalid]; rfl
    refine ⟨iff_of_true hok (hiff.mp h), .inl hok, fun q hq _ _ => ⟨⟨c.loadFactor, h⟩, rfl, ?_, ?_⟩⟩
    · rw [Config.resolve, hvalid]
      rfl
    · intro k hk
      obtain rfl := Option.some.inj ((LoadFactor.number?_single ⟨_, h⟩).symm.trans hq)
      exact LoadFactor.exact _ hk
  · have hrefused : c.validate = .error (.invalidLoadFactor c.loadFactor) := by
      rw [Config.validate, LoadFactor.ofSingle, dif_neg h]
      rfl
    have hnone : ¬ ∃ q, c.loadFactor.number? = some q ∧ 0 < q ∧ q ≤ 1 := mt hiff.mpr h
    refine ⟨iff_of_false (by rw [hrefused]; nofun) hnone, .inr hrefused, fun q hq hpos hle => ?_⟩
    exact absurd ⟨q, hq, hpos, hle⟩ hnone

/-- One step below 1, the greatest slot count there is stays `2 ^ 39` slots above its threshold. -/
theorem threshold_exact_of_below_one :
    (Single.mk 0x3f7fffff).number? = some (16777215 / 16777216) ∧
    ∃ f : LoadFactor, f.single = ⟨0x3f7fffff⟩ ∧ f.threshold (2 ^ 63) = 2 ^ 63 - 2 ^ 39 := by
  have hnumber : (Single.mk 0x3f7fffff).number? = some (16777215 / 16777216) := by
    norm_num [Single.number?, show UInt32.toNat 0x3f7fffff = 0x3f7fffff from rfl]
  obtain ⟨f, hf, _, hexact⟩ :=
    (threshold_exact ⟨16, ⟨0x3f7fffff⟩⟩).2.2 _ hnumber (by norm_num) (by norm_num)
  refine ⟨hnumber, f, hf, ?_⟩
  rw [(hexact 63 (by decide)).floor]
  norm_num

end SlotArrays
