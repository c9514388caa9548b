/-! The short end of SpookyHash, for one word.

Four words stand in a circle. A turn mixes the first into the second, rotates the
first, adds it to the second and moves on by one place, so that eleven turns
(`shortEnd`) bring each word into the next nearly three times around. The key
goes into the third word, and the hash is the lower half of the third word. -/
namespace SlotArrays.Hash.Spooky

structure Words where
  a : UInt64
  b : UInt64
  c : UInt64
  d : UInt64
deriving DecidableEq

def rotate (word amount : UInt64) : UInt64 := word <<< amount ||| word >>> (64 - amount)

/-- Mixes the word in front into the next and sends it to the end. -/
def turn (w : Words) (amount : UInt64) : Words :=
  let front := rotate w.a amount
  ⟨(w.b ^^^ w.a) + front, w.c, w.d, front⟩

def amounts : List UInt64 := [15, 52, 26, 51, 28, 9, 47, 54, 32, 25, 63]

/-- Eleven turns, beginning with the third word in front. They leave the second word
in front. -/
def shortEnd (w : Words) : Words :=
  let turned := amounts.foldl turn ⟨w.c, w.d, w.a, w.b⟩
  ⟨turned.d, turned.a, turned.b, turned.c⟩

def seed : UInt64 := 0xDEADBEEFDEADBEEF

/-- The words that a key begins with. -/
def start (key : Int64) : Words := ⟨0, 0, seed + key.toUInt64, seed⟩

def hash (key : Int64) : Int32 := (shortEnd (start key)).c.toUInt32.toInt32

end SlotArrays.Hash.Spooky
