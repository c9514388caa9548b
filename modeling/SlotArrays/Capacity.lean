/-! Slot counts.

Every container stands on arrays whose length is a power of two, so that an
index is reduced to the array by keeping its low bits (`wrap`). A requested
capacity is rounded up to such a length (`slotCount`), at least 1 and at most
`maxCapacity`. The rounding itself works on 32-bit signed numbers and never
branches on the position of the top bit: `smear` copies that bit into every
place below it, and one more is a power of two. -/
namespace SlotArrays

/-- The largest capacity that rounding yields. -/
def maxCapacity : Int32 := 0x40000000

/-- Slots of a table that was not asked for a capacity. -/
def defaultCapacity : Nat := 16

/-- Slots of a ring that was not asked for a capacity. -/
def defaultRingCapacity : Nat := 4

/-- Sizes are counted in words of 64 bits; this one no longer fits. -/
def sizeLimit : Nat := 0x10000000000000000

/-- Every bit below a set bit becomes set. -/
def smear (n : Int32) : Int32 :=
  ([1, 2, 4, 8, 16] : List Int32).foldl (fun n shift => n ||| n >>> shift) n

/-- The least power of two that is at least `n`, within 1 and `maxCapacity`. -/
def nextPowerOfTwo (n : Int32) : Int32 :=
  if n ≤ 0 then 1
  else if maxCapacity ≤ n then maxCapacity
  else smear (n - 1) + 1

/-- Slots made for a requested capacity. A request past the 32-bit range counts as
the largest 32-bit number. -/
def slotCount (requested : Nat) : Nat :=
  (nextPowerOfTwo (Int32.ofNat (min requested 0x7fffffff))).toInt.toNat

/-- Index `i` reduced to an array of `size` slots, `size` a power of two. -/
def wrap (size i : Nat) : Nat := i &&& (size - 1)

/-- `size` doubled again and again, as far as sizes go. -/
def doublings (size : Nat) : List Nat :=
  ((List.range 64).map fun k => size <<< (k + 1)).takeWhile (· < sizeLimit)

end SlotArrays
