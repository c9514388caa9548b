import SlotArrays.Single

/-! The shortest decimal that reads back.

The decimals that read back as a given `Single` fill a `Span` around its value:
half a step to either side, ends included when the significand is even. Among
the multiples of a power of ten only the two neighbours of the value need to be
tried. `shortest` goes from coarse powers to fine ones and stops at the first
that has a multiple in the span, so no decimal in the span has fewer digits; of
two neighbours in the span it takes the nearer, and the upper one when the value
lies halfway between them. -/
namespace SlotArrays

/-- The number `digits * 10 ^ place`. -/
structure Decimal where
  digits : Nat
  place : Int
deriving DecidableEq, Inhabited

/-- A value and the two ends of a range around it, counted in units of `2 ^ exponent`. -/
structure Span where
  low : Nat
  value : Nat
  high : Nat
  exponent : Int
  /-- The ends belong to the range. -/
  closed : Bool
deriving DecidableEq

namespace Span

/-- The unit divided by `10 ^ place`, as numerator and denominator. -/
def unit (s : Span) (place : Int) : Nat × Nat :=
  (Nat.pow 10 (-place).toNat <<< s.exponent.toNat, Nat.pow 10 place.toNat <<< (-s.exponent).toNat)

/-- Whether `n * 10 ^ place` is in the range. -/
def holds (s : Span) (place : Int) (n : Nat) : Bool :=
  let (numerator, denominator) := s.unit place
  let number := n * denominator
  if s.closed then s.low * numerator ≤ number && number ≤ s.high * numerator
  else s.low * numerator < number && number < s.high * numerator

/-- The multiple of `10 ^ place` in the range that is nearest to the value. -/
def nearest? (s : Span) (place : Int) : Option Nat :=
  let (numerator, denominator) := s.unit place
  let below := s.value * numerator / denominator
  let remainder := s.value * numerator % denominator
  match s.holds place below, s.holds place (below + 1) with
  | true, true => some (if 2 * remainder < denominator then below else below + 1)
  | true, false => some below
  | false, true => some (below + 1)
  | false, false => none

end Span

namespace Single

/-- The numbers that read back as the magnitude of a finite pattern that is not zero.
Below a power of two the steps are half as long, unless they are the shortest there are. -/
def span (x : Single) : Span where
  low := 4 * x.significand - if x.fraction = 0 ∧ 1 < x.exponentField then 1 else 2
  value := 4 * x.significand
  high := 4 * x.significand + 2
  exponent := x.exponent - 2
  closed := x.significand % 2 == 0

/-- The powers of ten worth trying: every finite pattern is below `10 ^ 39` and has a
multiple of `10 ^ (-46)` in its span. -/
def places : List Int := (List.range 86).map fun (k : Nat) => 39 - (k : Int)

/-- The shortest decimal of the magnitude of a finite pattern. -/
def shortest (x : Single) : Decimal :=
  if x.isZero then ⟨0, 0⟩
  else (places.findSome? fun place => (x.span.nearest? place).map (⟨·, place⟩)).getD ⟨0, 0⟩

end Single
end SlotArrays
