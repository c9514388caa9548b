/-! Text in units of 16 bits.

A character below `0x10000` is one unit, any other a pair of surrogates: the
upper ten bits of its distance from `0x10000` and the lower ten. -/
namespace SlotArrays

def charUnits (c : Char) : List UInt16 :=
  if c.val < 0x10000 then [c.val.toUInt16]
  else
    let distance : UInt32 := c.val - 0x10000
    let upper : UInt32 := distance >>> 10
    let lower : UInt32 := distance &&& 0x3FF
    [0xD800 + upper.toUInt16, 0xDC00 + lower.toUInt16]

def textUnits (s : String) : List UInt16 := s.toList.flatMap charUnits

end SlotArrays
