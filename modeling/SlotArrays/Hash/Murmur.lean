/-! The finishing mix of Murmur3.

Three times the word is folded onto its lower part, and between the folds it is
multiplied by an odd constant. The hash is the lower half of the result. -/
namespace SlotArrays.Hash.Murmur

/-- The upper 31 bits folded onto the lower ones. -/
def fold (word : UInt64) : UInt64 := word ^^^ word >>> 33

def first : UInt64 := 0xff51afd7ed558ccd
def second : UInt64 := 0xc4ceb9fe1a85ec53

def mix (word : UInt64) : UInt64 := fold (fold (fold word * first) * second)

def hash (key : Int64) : Int32 := (mix key.toUInt64).toUInt32.toInt32

end SlotArrays.Hash.Murmur
