import SlotArrays.Decimal.Shortest

/-! Decimals as text.

A decimal is written out with a point (`positional`) or with one digit before the
point and an exponent (`scientific`). A `Style` says which of the two and how
many digits stand behind the point at least. Messages use `Style.plain`, dumps
use `Style.ranged`. -/
namespace SlotArrays

namespace Decimal

def digitText (d : Decimal) : List Char := Nat.toDigits 10 d.digits

/-- The power of ten of the first digit. -/
def leading (d : Decimal) : Int := d.place + (d.digitText.length - 1 : Nat)

/-- Whole part and decimals, the decimals filled up with zeros to `least`. -/
def pointed (whole decimals : List Char) (least : Nat) : List Char :=
  let decimals := decimals ++ List.replicate (least - decimals.length) '0'
  if decimals.isEmpty then whole else whole ++ '.' :: decimals

/-- All digits written out, with at least `least` of them behind the point. -/
def positional (d : Decimal) (least : Nat) : List Char :=
  let text := d.digitText
  if 0 ≤ d.place then pointed (text ++ List.replicate d.place.toNat '0') [] least
  else
    let behind := (-d.place).toNat
    let text := List.replicate (behind + 1 - text.length) '0' ++ text
    pointed (text.take (text.length - behind)) (text.drop (text.length - behind)) least

/-- One digit, the others behind the point, and the power of ten of the first. -/
def scientific (d : Decimal) : List Char :=
  let text := d.digitText
  pointed (text.take 1) (text.drop 1) 0 ++ 'e' :: (toString d.leading).toList

/-- How numbers are written. -/
structure Style where
  /-- Digits behind the point at least. -/
  least : Nat
  /-- Powers of ten of the first digit that are written out. -/
  written : Int → Bool

/-- Always written out, and no point behind a whole number. -/
def Style.plain : Style := ⟨0, fun _ => true⟩

/-- Written out from `0.0001` to below `10 ^ 16`, always with a point. -/
def Style.ranged : Style := ⟨1, fun leading => -4 ≤ leading && leading < 16⟩

def text (style : Style) (d : Decimal) : List Char :=
  if style.written d.leading then d.positional style.least else d.scientific

end Decimal

namespace Single

/-- A pattern as text. What is no number has no sign. -/
def text (style : Decimal.Style) (x : Single) : String :=
  if x.isNaN then "NaN"
  else
    let magnitude := if x.isInfinite then "inf".toList else x.shortest.text style
    String.ofList (if x.negative then '-' :: magnitude else magnitude)

end Single
end SlotArrays
