/-! Floating-point numbers of 32 bits, by their pattern.

A `Single` is the pattern itself: a sign bit, an exponent field of 8 bits and a
fraction of 23. Two patterns compare as numbers do (`lt`, `le`, `equals`): both
zeros stand at the same place, and a pattern that is no number compares with
nothing, itself included. A finite pattern has a significand and an exponent
(`significand`, `exponent`), and its magnitude is exactly
`significand * 2 ^ exponent`. -/
namespace SlotArrays

structure Single where
  bits : UInt32
deriving DecidableEq, Inhabited

namespace Single

def zero : Single := ⟨0⟩
def one : Single := ⟨0x3f800000⟩

def negative (x : Single) : Bool := x.bits &&& 0x80000000 != 0

/-- The pattern without its sign. Patterns of one sign are ordered as these are. -/
def magnitude (x : Single) : Nat := (x.bits &&& 0x7fffffff).toNat

def exponentField (x : Single) : Nat := x.magnitude / 0x800000
def fraction (x : Single) : Nat := x.magnitude % 0x800000

/-- The pattern stands for no number. -/
def isNaN (x : Single) : Bool := x.exponentField == 255 && x.fraction != 0

def isInfinite (x : Single) : Bool := x.exponentField == 255 && x.fraction == 0

def isZero (x : Single) : Bool := x.magnitude == 0

/-- The whole number in front of the power of two. The leading bit is not written in
the pattern unless the exponent field is zero. -/
def significand (x : Single) : Nat :=
  if x.exponentField = 0 then x.fraction else 0x800000 + x.fraction

/-- The power of two that goes with `significand`. -/
def exponent (x : Single) : Int := max x.exponentField 1 - 150

/-! ### Comparing -/

/-- Place on the number line, in steps from one pattern to the next. -/
def rank (x : Single) : Int := if x.negative then -x.magnitude else x.magnitude

def lt (x y : Single) : Bool := !x.isNaN && !y.isNaN && x.rank < y.rank
def le (x y : Single) : Bool := !x.isNaN && !y.isNaN && x.rank ≤ y.rank

/-- Equal as numbers, which is not equality of patterns. -/
def equals (x y : Single) : Bool := !x.isNaN && !y.isNaN && x.rank == y.rank

end Single
end SlotArrays
