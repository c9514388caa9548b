import Mathlib.Data.List.TakeWhile
import Mathlib.Data.Nat.Size
import Mathlib.Order.Bounds.Basic
import Mathlib.Tactic.Ring
import SlotArrays.Capacity

/-! Slot counts are powers of two.

`smear` copies the top bit of a number into every place below it: after the
shifts by 1, 2, 4, 8 and 16 a bit is set when one of the 32 bits from there up
was set (`Covers`). So a number of `n` bits becomes `2 ^ n - 1`, and one more is
the least power of two past it (`IsLeastPower`). The rounding yields the least
power that is not below its number, up to the largest capacity, so every slot
count is a power of two, and so are the doublings of it. -/
namespace SlotArrays

/-! ### Smearing -/

/-- A bit of `y` is set when one of the `m` bits of `x` from there up is. -/
def Covers (x y m : Nat) : Prop :=
  ∀ i, y.testBit i = true ↔ ∃ d, d < m ∧ x.testBit (i + d) = true

theorem covers_self (x : Nat) : Covers x x 1 := by
  intro i
  constructor
  · intro h
    exact ⟨0, Nat.one_pos, h⟩
  · rintro ⟨d, hd, h⟩
    rwa [show d = 0 by omega] at h

/-- A copy shifted as far as `y` covers doubles what is covered. -/
theorem Covers.double {x y m : Nat} (h : Covers x y m) : Covers x (y ||| y >>> m) (m + m) := by
  intro i
  rw [Nat.testBit_or, Nat.testBit_shiftRight, Bool.or_eq_true, h i, h (m + i)]
  constructor
  · rintro (⟨d, hd, hx⟩ | ⟨d, hd, hx⟩)
    · exact ⟨d, by omega, hx⟩
    · exact ⟨m + d, by omega, by rwa [show i + (m + d) = m + i + d by omega]⟩
  · rintro ⟨d, hd, hx⟩
    by_cases hlow : d < m
    · exact .inl ⟨d, hlow, hx⟩
    · exact .inr ⟨d - m, by omega, by rwa [show m + i + (d - m) = i + d by omega]⟩

theorem Covers.eq_ones {x y m : Nat} (h : Covers x y m) (hx : x < 2 ^ m) : y = 2 ^ x.size - 1 := by
  have hsize : x.size ≤ m := Nat.size_le.mpr hx
  apply Nat.eq_of_testBit_eq
  intro i
  rw [Nat.testBit_two_pow_sub_one, Bool.eq_iff_iff, h i, decide_eq_true_eq]
  constructor
  · rintro ⟨d, _, hbit⟩
    have : 2 ^ (i + d) ≤ x := Nat.ge_two_pow_of_testBit hbit
    have := Nat.lt_size.mpr this
    omega
  · intro hi
    have hpos : 0 < x := Nat.size_pos.mp (by omega)
    refine ⟨x.size - 1 - i, by omega, ?_⟩
    rw [show i + (x.size - 1 - i) = x.size - 1 by omega, Nat.testBit_eq_decide_div_mod_eq,
      decide_eq_true_eq]
    have hlow : 2 ^ (x.size - 1) ≤ x := Nat.lt_size.mp (by omega)
    have hhigh : x < 2 ^ (x.size - 1) * 2 := by
      rw [← pow_succ, show x.size - 1 + 1 = x.size by omega]
      exact Nat.lt_size_self x
    have hquotient : x / 2 ^ (x.size - 1) = 1 := Nat.div_eq_of_lt_le (by omega) (by omega)
    rw [hquotient]

/-- Below the sign bit a shift brings in zeros, so one step of the smearing doubles what is
covered, and stays below the sign bit. -/
theorem Covers.step {x k : Nat} {n : Int32} (h : Covers x n.toBitVec.toNat k)
    (hn : n.toBitVec.toNat < 2 ^ 31) (shift : Int32) (hk : (shift.toBitVec.smod 32).toNat = k) :
    Covers x (n ||| n >>> shift).toBitVec.toNat (k + k) ∧
      (n ||| n >>> shift).toBitVec.toNat < 2 ^ 31 := by
  have hmsb : n.toBitVec.msb = false := by
    rw [BitVec.msb_eq_decide, decide_eq_false_iff_not]
    omega
  have hstep : (n ||| n >>> shift).toBitVec.toNat = n.toBitVec.toNat ||| n.toBitVec.toNat >>> k := by
    rw [Int32.toBitVec_or, Int32.toBitVec_shiftRight, BitVec.toNat_or]
    congr 1
    show (n.toBitVec.sshiftRight (shift.toBitVec.smod 32).toNat).toNat = _
    rw [hk, BitVec.sshiftRight_eq_of_msb_false hmsb, BitVec.toNat_ushiftRight]
  rw [hstep]
  exact ⟨h.double, Nat.or_lt_two_pow hn ((Nat.shiftRight_le ..).trans_lt hn)⟩

theorem toNat_smear {n : Int32} (hn : n.toBitVec.toNat < 2 ^ 31) :
    (smear n).toBitVec.toNat = 2 ^ n.toBitVec.toNat.size - 1 := by
  obtain ⟨h₁, hn₁⟩ := (covers_self n.toBitVec.toNat).step hn 1 (by decide)
  obtain ⟨h₂, hn₂⟩ := h₁.step hn₁ 2 (by decide)
  obtain ⟨h₃, hn₃⟩ := h₂.step hn₂ 4 (by decide)
  obtain ⟨h₄, hn₄⟩ := h₃.step hn₃ 8 (by decide)
  obtain ⟨h₅, _⟩ := h₄.step hn₄ 16 (by decide)
  exact h₅.eq_ones (hn.trans (by decide))

/-! ### Least powers of two -/

/-- The least power of two that is at least `n`. -/
def IsLeastPower (n p : Nat) : Prop := IsLeast {p | p.isPowerOfTwo ∧ n ≤ p} p

namespace IsLeastPower
variable {m n p q : Nat}

/-- It has one bit more than the number before `n`. -/
theorem of_size (n : Nat) : IsLeastPower n (2 ^ (n - 1).size) := by
  constructor
  · have := Nat.lt_size_self (n - 1)
    exact ⟨⟨_, rfl⟩, by omega⟩
  · intro p hp
    obtain ⟨⟨k, rfl⟩, hn⟩ := hp
    have := Nat.two_pow_pos k
    exact Nat.pow_le_pow_right Nat.two_pos (Nat.size_le.mpr (by omega))

theorem isPowerOfTwo (h : IsLeastPower n p) : p.isPowerOfTwo := h.1.1

theorem le (h : IsLeastPower n p) : n ≤ p := h.1.2

theorem self (h : n.isPowerOfTwo) : IsLeastPower n n := ⟨⟨h, le_rfl⟩, fun _ hp => hp.2⟩

theorem unique (hp : IsLeastPower n p) (hq : IsLeastPower n q) : p = q := IsLeast.unique hp hq

theorem mono (hp : IsLeastPower m p) (hq : IsLeastPower n q) (h : m ≤ n) : p ≤ q :=
  hp.2 ⟨hq.isPowerOfTwo, h.trans hq.le⟩

/-- Under a further bound it makes no difference to begin with the least power for the first. -/
theorem trans (hp : IsLeastPower n p) (hq : IsLeastPower (max p m) q) :
    IsLeastPower (max n m) q := by
  have hpq := hq.le
  have hnp := hp.le
  refine ⟨⟨hq.isPowerOfTwo, by omega⟩, fun other hother => ?_⟩
  obtain ⟨hpower, hbound⟩ := hother
  have hpo : p ≤ other := hp.2 ⟨hpower, by omega⟩
  exact hq.2 ⟨hpower, by omega⟩

/-- Past a power of two the next one is its double. -/
theorem double (h : n.isPowerOfTwo) : IsLeastPower (n + 1) (n * 2) := by
  obtain ⟨k, rfl⟩ := h
  have := Nat.two_pow_pos k
  refine ⟨⟨⟨k + 1, rfl⟩, by omega⟩, fun other hother => ?_⟩
  obtain ⟨⟨j, rfl⟩, hbound⟩ := hother
  exact Nat.pow_le_pow_right Nat.two_pos ((Nat.pow_lt_pow_iff_right (by decide)).mp hbound)

/-- Beside a bound that is a power of two itself, the greater of the two powers counts. -/
theorem max_left (h : m.isPowerOfTwo) (hp : IsLeastPower n p) :
    IsLeastPower (max m n) (max m p) := by
  have hnp := hp.le
  refine ⟨⟨?_, by omega⟩, fun other hother => ?_⟩
  · rcases Nat.le_total m p with hle | hle
    · rw [max_eq_right hle]
      exact hp.isPowerOfTwo
    · rwa [max_eq_left hle]
  · obtain ⟨hpower, hbound⟩ := hother
    have hpo : p ≤ other := hp.2 ⟨hpower, by omega⟩
    omega

end IsLeastPower

/-! ### Rounding up -/

theorem toInt_eq_toNat {n : Int32} (hn : n.toBitVec.toNat < 2 ^ 31) :
    n.toInt = n.toBitVec.toNat := by
  rw [← Int32.toInt_toBitVec, BitVec.toInt_eq_toNat_of_lt (by omega)]

theorem toNat_eq_toInt {n : Int32} (hn : 0 ≤ n.toInt) : n.toBitVec.toNat = n.toInt.toNat := by
  rw [Int32.toNat_toBitVec_of_le (Int32.le_iff_toInt_le.mpr hn)]
  rfl

/-- Nothing is lost below a number from 1 up. -/
theorem toInt_sub_one {n : Int32} (hpos : 0 < n.toInt) : (n - 1).toInt = n.toInt - 1 := by
  have := n.toInt_lt
  rw [Int32.toInt_sub, show (1 : Int32).toInt = 1 by decide]
  exact Int.bmod_eq_of_le (by omega) (by omega)

/-- Up to the largest capacity smearing fills the bits of the number below, and no others. -/
theorem toInt_smear_sub_one {n : Int32} (hpos : 0 < n.toInt) (hlt : n.toInt < 2 ^ 30) :
    (smear (n - 1)).toInt = (2 ^ (n.toInt.toNat - 1).size : Nat) - 1 ∧
      (n.toInt.toNat - 1).size ≤ 30 := by
  have hbelow := toInt_sub_one hpos
  have hsize : (n.toInt.toNat - 1).size ≤ 30 := Nat.size_le.mpr (by omega)
  have hpow : 2 ^ (n.toInt.toNat - 1).size ≤ 2 ^ 30 := Nat.pow_le_pow_right (by decide) hsize
  have hpos := Nat.two_pow_pos (n.toInt.toNat - 1).size
  have hnat : (n - 1).toBitVec.toNat = n.toInt.toNat - 1 := by
    rw [toNat_eq_toInt (by omega), hbelow]
    omega
  have hones : (smear (n - 1)).toBitVec.toNat = 2 ^ (n.toInt.toNat - 1).size - 1 := by
    rw [toNat_smear (by omega), hnat]
  refine ⟨?_, hsize⟩
  rw [toInt_eq_toNat (by omega), hones]
  omega

theorem le_zero_iff {n : Int32} : n ≤ 0 ↔ n.toInt ≤ 0 := by
  rw [Int32.le_iff_toInt_le, Int32.toInt_zero]

theorem maxCapacity_le_iff {n : Int32} : maxCapacity ≤ n ↔ 2 ^ 30 ≤ n.toInt := by
  rw [Int32.le_iff_toInt_le, show maxCapacity.toInt = 2 ^ 30 by decide]

/-- **The rounding yields the least power of two from 1 up,** as far as the largest capacity. -/
theorem exists_nextPowerOfTwo (n : Int32) :
    ∃ p, IsLeastPower (max n.toInt 1).toNat p ∧
      (nextPowerOfTwo n).toInt = (min (2 ^ 30) p : Nat) := by
  refine ⟨_, .of_size _, ?_⟩
  unfold nextPowerOfTwo
  split
  · have hzero := le_zero_iff.mp ‹_›
    rw [max_eq_right (by omega)]
    rfl
  · have hpos : 0 < n.toInt := by simpa only [le_zero_iff, not_le] using ‹¬ n ≤ 0›
    rw [max_eq_left (by omega)]
    split
    · -- The least power is as great as the number, so the minimum cuts it off.
      have hmax := maxCapacity_le_iff.mp ‹_›
      have hle := (IsLeastPower.of_size n.toInt.toNat).le
      rw [Nat.min_eq_left (by omega)]
      rfl
    · have hlt : n.toInt < 2 ^ 30 := by
        simpa only [maxCapacity_le_iff, not_le] using ‹¬ maxCapacity ≤ n›
      obtain ⟨hsmear, hsize⟩ := toInt_smear_sub_one hpos hlt
      have hpow := Nat.pow_le_pow_right Nat.two_pos hsize
      have hpos := Nat.two_pow_pos (n.toInt.toNat - 1).size
      rw [Nat.min_eq_right hpow, Int32.toInt_add, hsmear, show (1 : Int32).toInt = 1 by decide,
        Int.sub_add_cancel]
      exact Int.bmod_eq_of_le (by omega) (by omega)

/-- A request past the 32-bit range counts for as much as any past the largest capacity. -/
theorem exists_leastPower_slotCount (requested : Nat) :
    ∃ p, IsLeastPower (max requested 1) p ∧ slotCount requested = min (2 ^ 30) p := by
  have hn : (Int32.ofNat (min requested 0x7fffffff)).toInt = (min requested 0x7fffffff : Nat) :=
    Int32.toInt_ofNat_of_lt (by omega)
  obtain ⟨p, hp, hround⟩ := exists_nextPowerOfTwo (Int32.ofNat (min requested 0x7fffffff))
  rw [hn] at hp
  have hq := IsLeastPower.of_size (max requested 1)
  refine ⟨_, hq, ?_⟩
  rw [slotCount, hround, Int.toNat_natCast]
  by_cases hlow : requested ≤ 0x7fffffff
  · have hbound : (max (min requested 0x7fffffff : Nat) 1 : Int).toNat = max requested 1 := by omega
    rw [hbound] at hp
    rw [hp.unique hq]
  · have := hp.le
    have := hq.le
    omega

/-- **Every slot count is a power of two.** -/
theorem exists_slotCount (requested : Nat) : ∃ k, k ≤ 30 ∧ slotCount requested = 2 ^ k := by
  obtain ⟨p, hp, hcount⟩ := exists_leastPower_slotCount requested
  obtain ⟨k, rfl⟩ := hp.isPowerOfTwo
  rcases Nat.le_total k 30 with hk | hk
  · exact ⟨k, hk, by rw [hcount, Nat.min_eq_right (Nat.pow_le_pow_right Nat.two_pos hk)]⟩
  · exact ⟨30, le_rfl, by rw [hcount, Nat.min_eq_left (Nat.pow_le_pow_right Nat.two_pos hk)]⟩

/-! ### Doubling -/

theorem doublings_two_pow {k : Nat} (hk : k < 64) :
    doublings (2 ^ k) = (List.range (63 - k)).map fun j => 2 ^ (k + 1 + j) := by
  have hlimit (j : Nat) : decide (2 ^ (k + 1 + j) < sizeLimit) = true ↔ j < 63 - k := by
    rw [decide_eq_true_eq, show sizeLimit = 2 ^ 64 by decide, Nat.pow_lt_pow_iff_right (by decide)]
    omega
  have hshift : (fun j => 2 ^ k <<< (j + 1)) = fun j => 2 ^ (k + 1 + j) := by
    funext j
    rw [Nat.shiftLeft_eq, ← pow_add, show k + (j + 1) = k + 1 + j by omega]
  -- The first doubling out of range ends the list.
  rw [doublings, hshift, show 64 = 63 - k + (k + 1) by omega, List.range_add, List.map_append,
    List.takeWhile_append_of_pos, List.range_succ_eq_map, List.map_cons, List.map_cons,
    List.takeWhile_cons_of_neg, List.append_nil]
  · rw [hlimit]
    omega
  · intro slots hmem
    obtain ⟨j, hj, rfl⟩ := List.mem_map.mp hmem
    exact (hlimit j).mpr (List.mem_range.mp hj)

/-- The doublings of a power of two are the greater ones below the limit of sizes. -/
theorem mem_doublings {k slots : Nat} (hk : k < 64) :
    slots ∈ doublings (2 ^ k) ↔ ∃ n, k < n ∧ n < 64 ∧ slots = 2 ^ n := by
  rw [doublings_two_pow hk, List.mem_map]
  constructor
  · intro hmem
    obtain ⟨j, hj, rfl⟩ := hmem
    have := List.mem_range.mp hj
    exact ⟨k + 1 + j, by omega, by omega, rfl⟩
  · intro hpower
    obtain ⟨n, hkn, hn, rfl⟩ := hpower
    exact ⟨n - (k + 1), List.mem_range.mpr (by omega), by rw [show k + 1 + (n - (k + 1)) = n by omega]⟩

end SlotArrays
