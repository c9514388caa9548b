import SlotArrays.Binary
import SlotArrays.Capacity
import SlotArrays.Refusal

/-! Load factors and thresholds.

A load factor is a `Single` above 0 and at most 1, and `LoadFactor` holds the
proof of it. The threshold of a slot count is the whole part of the product with
the load factor. The product is the one of 53-bit floating point: the slot count
is rounded to 53 significant bits, the exact product is rounded once more, and
the whole part stays inside the range of sizes. No exponent range has to be
minded: a slot count is below `2 ^ 64` and a load factor at least `2 ^ (-149)`. -/
namespace SlotArrays

/-- Above 0 and at most 1. -/
def Single.isFraction (x : Single) : Bool := Single.zero.lt x && x.le .one

structure LoadFactor where
  single : Single
  isFraction : single.isFraction = true
deriving DecidableEq

namespace LoadFactor

/-- Three quarters, for a table that was not asked for a load factor. -/
def default : LoadFactor := ⟨⟨0x3f400000⟩, by decide⟩

instance : Inhabited LoadFactor := ⟨default⟩

def ofSingle (x : Single) : Except Refusal LoadFactor :=
  if h : x.isFraction then .ok ⟨x, h⟩ else .error (.invalidLoadFactor x)

/-- The exact value. -/
def binary (f : LoadFactor) : Binary := ⟨f.single.significand, f.single.exponent⟩

/-- Significant bits of the products that thresholds are taken from. -/
def precision : Nat := 53

/-- Entries that `slots` slots may hold before the table grows. -/
def threshold (f : LoadFactor) (slots : Nat) : Nat :=
  let rounded := (Binary.ofNat slots).roundTo precision
  min ((rounded.mul f.binary).roundTo precision).floor (sizeLimit - 1)

end LoadFactor
end SlotArrays
