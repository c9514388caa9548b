import SlotArrays.Call
import SlotArrays.Capacity
import SlotArrays.Keying

/-! Probing.

A probe begins at the slot that the hash of the key selects (`home`) and goes from
slot to slot, around the end of the array, until it meets a vacant slot or the
key. A probe for a lookup (`find`) gives up after one lap. A probe for a place
to store (`seat`) has no such bound: after a lap without success it would repeat
the same lap for ever, which is the fault `endlessProbe`. -/
namespace SlotArrays.Probe
variable {κ θ : Type} {K : Keying κ}

/-- Where a probe in `size` slots begins: the hash is read without a sign. -/
def home (size : Nat) (hash : Int32) : Nat := wrap size hash.toUInt32.toNat

/-- A probe for `q` from slot `i`, over at most so many slots. -/
def findFrom (F : Form K θ) (keys : Array κ) (q : θ) : Nat → Nat → Except Fault (Option Nat)
  | 0, _ => .ok none
  | left + 1, i => do
    let key ← slotAt keys i
    if K.vacates key then return none
    else if F.same (F.view key) q then return some i
    else findFrom F keys q left (wrap keys.size (i + 1))

/-- The slot that holds a key equal to `q`. -/
def find (F : Form K θ) (keys : Array κ) (q : θ) : Except Fault (Option Nat) :=
  findFrom F keys q keys.size (home keys.size (F.hash q))

/-- A probe for a place for `key` from slot `i`, with so many slots left in the lap. -/
def seatFrom (K : Keying κ) (keys : Array κ) (key : κ) : Nat → Nat → Except Fault Nat
  | 0, _ => .error .endlessProbe
  | left + 1, i => do
    let held ← slotAt keys i
    if K.vacates held || K.same held key then return i
    else seatFrom K keys key left (wrap keys.size (i + 1))

/-- The first slot that is vacant or holds `key` already. -/
def seat (K : Keying κ) (keys : Array κ) (key : κ) : Except Fault Nat :=
  seatFrom K keys key keys.size (home keys.size (K.hash key))

end SlotArrays.Probe
