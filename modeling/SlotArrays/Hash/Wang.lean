/-! The mix of 32-bit keys: the key and its upper half, the sign drawn along. -/
namespace SlotArrays.Hash

def wang (key : Int32) : Int32 := key ^^^ key >>> 16

end SlotArrays.Hash
