import SlotArrays.Config
import SlotArrays.Event
import SlotArrays.Hash.Wang
import SlotArrays.Probe

/-! Tables under 32-bit keys.

The keys are the numbers themselves: 0 marks vacant slots, keys are compared as
words, and the hash is fixed. Nothing is asked of a caller. The slots are those of
a table under the same keys and hash, and each call does the same to them. -/
namespace SlotArrays

structure IntTable (ν : Type) where
  keys : Array Int32
  values : Array ν
  count : Nat
  threshold : Nat
  loadFactor : LoadFactor

namespace IntTable
variable {ν : Type}

/-- The key that marks vacant slots. -/
def vacantKey : Int32 := 0

/-! ### Reading -/

def size (t : IntTable ν) : Nat := t.count
def isEmpty (t : IntTable ν) : Bool := t.count == 0
def capacity (t : IntTable ν) : Nat := t.keys.size

/-- The stored entries in slot order. -/
def entries (t : IntTable ν) : List (Int32 × ν) :=
  (t.keys.toList.zip t.values.toList).filter fun entry => entry.1 != vacantKey

/-! ### Making -/

section Making
variable [Inhabited ν]

/-- A table of vacant slots. -/
def vacant (slots : Nat) (loadFactor : LoadFactor) : IntTable ν where
  keys := Array.replicate slots vacantKey
  values := Array.replicate slots default
  count := 0
  threshold := loadFactor.threshold slots
  loadFactor := loadFactor

def withCapacity (requested : Nat) : IntTable ν := vacant (slotCount requested) .default

def empty : IntTable ν := withCapacity defaultCapacity

def ofConfig (config : Config) : Except Refusal (IntTable ν) :=
  config.resolve.map fun (slots, loadFactor) => vacant slots loadFactor

def withCapacityAndLoadFactor (requested : Nat) (loadFactor : Single) :
    Except Refusal (IntTable ν) :=
  ofConfig ((Config.default.withCapacity requested).withLoadFactor loadFactor)

/-- The table asked for. -/
def make : TableMaking → Except Refusal (IntTable ν)
  | .empty => .ok empty
  | .capacity requested => .ok (withCapacity requested)
  | .capacityAndLoadFactor requested loadFactor => withCapacityAndLoadFactor requested loadFactor
  | .config config => ofConfig config

end Making

/-! ### Probing -/

/-- The slot where probes for `key` begin. -/
def home (keys : Array Int32) (key : Int32) : Nat :=
  wrap keys.size (Hash.wang key).toUInt32.toNat

/-- A probe for `key` from slot `i`, over at most so many slots. -/
def findFrom (keys : Array Int32) (key : Int32) : Nat → Nat → Except Fault (Option Nat)
  | 0, _ => .ok none
  | left + 1, i => do
    let held ← slotAt keys i
    if held == vacantKey then return none
    if held == key then return some i
    findFrom keys key left (wrap keys.size (i + 1))

/-- A probe for a place for `key` from slot `i`. It goes on while the slot is taken by
another key; after a lap it would go on for ever. -/
def seatFrom (keys : Array Int32) (key : Int32) : Nat → Nat → Except Fault Nat
  | 0, _ => .error .endlessProbe
  | left + 1, i => do
    let held ← slotAt keys i
    if held != vacantKey && held != key then seatFrom keys key left (wrap keys.size (i + 1))
    else return i

/-! ### Single slots -/

/-- Calls on a table. -/
abbrev Action (ν α : Type) := Call (IntTable ν) TableEvent α

/-- The slot of the entry for `key`. -/
def find (key : Int32) : Action ν (Option Nat) := do
  let keys ← Call.view (·.keys)
  Call.lift (findFrom keys key keys.size (home keys key))

/-- The slot where `key` is or goes. -/
def seat (key : Int32) : Action ν Nat := do
  let keys ← Call.view (·.keys)
  Call.lift (seatFrom keys key keys.size (home keys key))

def keyAt (i : Nat) : Action ν Int32 := do
  Call.lift (slotAt (← Call.view (·.keys)) i)

def valueAt (i : Nat) : Action ν ν := do
  Call.lift (slotAt (← Call.view (·.values)) i)

def writeKey (i : Nat) (key : Int32) : Action ν Unit := do
  let size ← Call.view (·.keys.size)
  if i < size then Call.change fun t => {t with keys := t.keys.setIfInBounds i key}
  else Call.fail (.outOfRange i size)

def writeValue (i : Nat) (value : ν) : Action ν Unit := do
  let size ← Call.view (·.values.size)
  if i < size then Call.change fun t => {t with values := t.values.setIfInBounds i value}
  else Call.fail (.outOfRange i size)

def countUp : Action ν Unit := Call.change fun t => {t with count := t.count + 1}

def countDown : Action ν Unit := do
  if (← Call.view (·.count)) = 0 then Call.fail .countUnderflow
  else Call.change fun t => {t with count := t.count - 1}

end IntTable
end SlotArrays
