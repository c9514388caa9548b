/-! Exact binary numbers and rounding.

A `Binary` is `mantissa * 2 ^ exponent`, never negative and of any length.
Multiplication is exact. `roundTo` keeps a given number of significant bits and
goes to the nearest such number, of two equally near ones to the one whose last
bit is 0. `floor` is the whole part. -/
namespace SlotArrays

structure Binary where
  mantissa : Nat
  exponent : Int
deriving DecidableEq, Inhabited

namespace Binary

def ofNat (n : Nat) : Binary := ⟨n, 0⟩

def mul (x y : Binary) : Binary := ⟨x.mantissa * y.mantissa, x.exponent + y.exponent⟩

/-- Bits from the highest set one down to the lowest place. -/
def width (n : Nat) : Nat := if n = 0 then 0 else n.log2 + 1

/-- `n / 2 ^ k` to the nearest whole number, a half to the even neighbour. -/
def roundShift (n k : Nat) : Nat :=
  let unit := 1 <<< k
  let quotient := n / unit
  let twice := 2 * (n % unit)
  if unit < twice || (unit == twice && quotient % 2 == 1) then quotient + 1 else quotient

/-- The nearest number of at most `precision` significant bits. -/
def roundTo (precision : Nat) (x : Binary) : Binary :=
  let excess := width x.mantissa - precision
  ⟨roundShift x.mantissa excess, x.exponent + excess⟩

def floor (x : Binary) : Nat :=
  if 0 ≤ x.exponent then x.mantissa <<< x.exponent.toNat
  else x.mantissa >>> (-x.exponent).toNat

end Binary
end SlotArrays
