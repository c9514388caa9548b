import SlotArrays.Proofs.IntTable.Twins
import SlotArrays.Proofs.Ring.Fifo

/-! Rounding up.

A requested capacity becomes the least power of two that is not below it, between 1 and
`2 ^ 30` (`Suits`), and every container begins with so many slots. The rounding of 32-bit
numbers behind it never leaves their range: `Checked` has the same steps, each of them
minded, and none of them is refused. -/
namespace SlotArrays

/-! ### Steps that are minded -/

namespace Checked

/-- The sum, if it is a 32-bit number. -/
def add (m n : Int32) : Option Int32 :=
  if m.toBitVec.saddOverflow n.toBitVec then none else some (m + n)

/-- The difference, if it is a 32-bit number. -/
def sub (m n : Int32) : Option Int32 :=
  if m.toBitVec.ssubOverflow n.toBitVec then none else some (m - n)

/-- The shift, if the distance is below the width of a word. -/
def shiftRight (n shift : Int32) : Option Int32 :=
  if 0 ≤ shift.toInt ∧ shift.toInt < 32 then some (n >>> shift) else none

def smear (n : Int32) : Option Int32 :=
  ([1, 2, 4, 8, 16] : List Int32).foldlM (fun n shift => (shiftRight n shift).map (n ||| ·)) n

/-- The rounding up to where a step overflows. -/
def nextPowerOfTwo (n : Int32) : Option Int32 :=
  if n ≤ 0 then some 1
  else if maxCapacity ≤ n then some maxCapacity
  else do add (← smear (← sub n 1)) 1

theorem smear_eq (n : Int32) : smear n = some (SlotArrays.smear n) := rfl

theorem add_eq {m n : Int32} (hlow : -2 ^ 31 ≤ m.toInt + n.toInt)
    (hhigh : m.toInt + n.toInt < 2 ^ 31) : add m n = some (m + n) := by
  have hrange : m.toBitVec.saddOverflow n.toBitVec = false := by
    simp only [BitVec.saddOverflow, Int32.toInt_toBitVec, Bool.or_eq_false_iff,
      decide_eq_false_iff_not]
    omega
  rw [add, hrange]
  rfl

theorem sub_eq {m n : Int32} (hlow : -2 ^ 31 ≤ m.toInt - n.toInt)
    (hhigh : m.toInt - n.toInt < 2 ^ 31) : sub m n = some (m - n) := by
  have hrange : m.toBitVec.ssubOverflow n.toBitVec = false := by
    simp only [BitVec.ssubOverflow, Int32.toInt_toBitVec, Bool.or_eq_false_iff,
      decide_eq_false_iff_not]
    omega
  rw [sub, hrange]
  rfl

/-- The rounding has no step that overflows. -/
theorem nextPowerOfTwo_eq (n : Int32) :
    nextPowerOfTwo n = some (SlotArrays.nextPowerOfTwo n) := by
  unfold nextPowerOfTwo SlotArrays.nextPowerOfTwo
  split
  · rfl
  split
  · rfl
  · have hone : (1 : Int32).toInt = 1 := by decide
    have hpos : 0 < n.toInt := by simpa only [le_zero_iff, not_le] using ‹¬ n ≤ 0›
    have hlt : n.toInt < 2 ^ 30 := by
      simpa only [maxCapacity_le_iff, not_le] using ‹¬ maxCapacity ≤ n›
    obtain ⟨hsmear, hsize⟩ := toInt_smear_sub_one hpos hlt
    have hpow := Nat.pow_le_pow_right Nat.two_pos hsize
    have hpowpos := Nat.two_pow_pos (n.toInt.toNat - 1).size
    have hsub : sub n 1 = some (n - 1) := sub_eq (by omega) (by omega)
    have hadd : add (SlotArrays.smear (n - 1)) 1 = some (SlotArrays.smear (n - 1) + 1) :=
      add_eq (by omega) (by omega)
    simp only [hsub, smear_eq, Option.bind_eq_bind, Option.bind_some]
    exact hadd

end Checked

/-! ### The rounding -/

/-- What the rounding makes of a 32-bit number. -/
structure RoundsUp (n : Int32) : Prop where
  checked : Checked.nextPowerOfTwo n = some (nextPowerOfTwo n)
  least : ∃ p, IsLeastPower (max n.toInt 1).toNat p ∧
    (nextPowerOfTwo n).toInt = (min (2 ^ 30) p : Nat)
  mono : ∀ m ≤ n, nextPowerOfTwo m ≤ nextPowerOfTwo n
  idempotent : nextPowerOfTwo (nextPowerOfTwo n) = nextPowerOfTwo n

theorem nextPowerOfTwo_mono {m n : Int32} (h : m ≤ n) : nextPowerOfTwo m ≤ nextPowerOfTwo n := by
  obtain ⟨p, hp, hm⟩ := exists_nextPowerOfTwo m
  obtain ⟨q, hq, hn⟩ := exists_nextPowerOfTwo n
  have hbound := Int32.le_iff_toInt_le.mp h
  have hpq : p ≤ q := hp.mono hq (by omega)
  rw [Int32.le_iff_toInt_le, hm, hn]
  omega

theorem isPowerOfTwo_cap {p : Nat} (h : p.isPowerOfTwo) : (min (2 ^ 30) p).isPowerOfTwo := by
  rcases Nat.le_total (2 ^ 30) p with hp | hp
  · rw [Nat.min_eq_left hp]
    exact ⟨30, rfl⟩
  · rwa [Nat.min_eq_right hp]

/-- What the rounding yields is a power of two, and that is its own least one. -/
theorem nextPowerOfTwo_nextPowerOfTwo (n : Int32) :
    nextPowerOfTwo (nextPowerOfTwo n) = nextPowerOfTwo n := by
  obtain ⟨p, hp, hn⟩ := exists_nextPowerOfTwo n
  obtain ⟨q, hq, hagain⟩ := exists_nextPowerOfTwo (nextPowerOfTwo n)
  have hpos := hp.le
  have hbound : (max (nextPowerOfTwo n).toInt 1).toNat = min (2 ^ 30) p := by omega
  rw [hbound] at hq
  obtain rfl := hq.unique (.self (isPowerOfTwo_cap hp.isPowerOfTwo))
  rw [← Int32.toInt_inj, hagain, hn]
  omega

theorem roundsUp (n : Int32) : RoundsUp n where
  checked := Checked.nextPowerOfTwo_eq n
  least := exists_nextPowerOfTwo n
  mono _ := nextPowerOfTwo_mono
  idempotent := nextPowerOfTwo_nextPowerOfTwo n

/-! ### Slot counts -/

/-- A slot count that goes with a request. -/
structure Suits (requested slots : Nat) : Prop where
  least : ∃ p, IsLeastPower (max requested 1) p ∧ slots = min (2 ^ 30) p
  power : slots.isPowerOfTwo
  pos : 1 ≤ slots
  le : slots ≤ 2 ^ 30
  /-- As many slots as were asked for, unless these are too many. -/
  room : min requested (2 ^ 30) ≤ slots

theorem suits_slotCount (requested : Nat) : Suits requested (slotCount requested) := by
  obtain ⟨p, hp, hcount⟩ := exists_leastPower_slotCount requested
  have hle := hp.le
  refine ⟨⟨p, hp, hcount⟩, ?_, by omega, by omega, by omega⟩
  rw [hcount]
  exact isPowerOfTwo_cap hp.isPowerOfTwo

theorem Table.suits_make {κ ν : Type} {K : Keying κ} [Inhabited ν] {making : TableMaking}
    {t : Table K ν} (h : make making = .ok t) : Suits making.asConfig.capacity t.capacity := by
  obtain ⟨f, _, rfl⟩ := make_ok h
  rw [capacity, vacant, Array.size_replicate]
  exact suits_slotCount _

theorem IntTable.suits_make {ν : Type} [Inhabited ν] {making : TableMaking} {t : IntTable ν}
    (h : make making = .ok t) : Suits making.asConfig.capacity t.capacity := by
  have hmade : Table.make making = .ok t.toTable := by
    rw [← make_toTable, h]
    rfl
  exact Table.suits_make hmade

theorem Ring.suits_withCapacity {α : Type} (requested : Nat) :
    Suits requested (withCapacity requested : Ring α).capacity := by
  rw [capacity_withCapacity]
  exact suits_slotCount requested

/-- **Capacities are rounded up to the least power of two, between 1 and `2 ^ 30`,** without an
overflow on the way, and every container begins with what its request is rounded to. -/
theorem slots_rounded {κ ν α : Type} {K : Keying κ} [Inhabited ν] (n : Int32) (requested : Nat)
    (making : TableMaking) (ring : RingMaking α) :
    RoundsUp n ∧ Suits requested (slotCount requested) ∧
    (∀ t : Table K ν, Table.make making = .ok t → Suits making.asConfig.capacity t.capacity) ∧
    (∀ t : IntTable ν, IntTable.make making = .ok t → Suits making.asConfig.capacity t.capacity) ∧
    ∃ r : Ring α, Ring.make ring = (Ring.extend ring.contents).report r ∧
      r.size = 0 ∧ Suits ring.requested r.capacity :=
  ⟨roundsUp n, suits_slotCount requested, fun _ => Table.suits_make, fun _ => IntTable.suits_make,
    _, Ring.make_eq ring, rfl, Ring.suits_withCapacity _⟩

/-- Past half of the largest capacity, past 32 bits, and with more expected than there can be. -/
theorem slots_rounded_of_huge :
    nextPowerOfTwo 0x20000000 ≤ nextPowerOfTwo 0x20000001 ∧
    Suits 0x100000001 (Table.withCapacity 0x100000001 : Table Keying.wang Int32).capacity ∧
    Suits 0x100000001 (IntTable.withCapacity 0x100000001 : IntTable Int32).capacity ∧
    ∃ r : Ring Nat, Ring.make (.items 0xffffffffffffffff [1, 2]) = (Ring.extend [1, 2]).report r ∧
      r.size = 0 ∧ Suits 0xffffffffffffffff r.capacity := by
  obtain ⟨hround, _, htable, hint, hring⟩ := slots_rounded (K := Keying.wang) (ν := Int32)
    0x20000001 0x100000001 (.capacity 0x100000001) (.items 0xffffffffffffffff [1, 2])
  exact ⟨hround.mono _ (by decide), htable _ rfl, hint _ rfl, hring⟩

end SlotArrays
