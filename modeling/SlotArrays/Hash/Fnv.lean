import SlotArrays.Refusal
import SlotArrays.Text.Units

/-! FNV-1a over text.

Only the lower byte of each 16-bit unit is mixed in, so characters outside the
first 256 collide with others. Stored hashes depend on it. -/
namespace SlotArrays.Hash.Fnv

def basis : UInt32 := 2166136261
def prime : UInt32 := 16777619

/-- One byte mixed into the hash so far. -/
def mix (hash : UInt32) (byte : UInt8) : UInt32 := (hash ^^^ byte.toUInt32) * prime

/-- FNV-1a of 32 bits. -/
def ofBytes (bytes : List UInt8) : UInt32 := bytes.foldl mix basis

def hash (text : String) : Int32 := (ofBytes ((textUnits text).map (·.toUInt8))).toInt32

/-- The hash of a key that may be absent. -/
def hash? (text : Option String) : Except Refusal Int32 :=
  match text with
  | some text => .ok (hash text)
  | none => .error .missingKey

end SlotArrays.Hash.Fnv
