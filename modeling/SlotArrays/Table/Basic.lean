import SlotArrays.Config
import SlotArrays.Event
import SlotArrays.Probe

/-! Tables of keys and values.

A table is two arrays of equal length, a power of two: slot `i` holds the key
`keys[i]` and the value `values[i]`. A slot whose key is the reserved one is
vacant and holds the default value. `count` entries are stored, and storing
begins with growth as soon as `count` has reached `threshold`.

Here are the ways to make a table and the steps on single slots. Each array
access minds the bounds and each step down minds zero, so that a call which would
break them breaks off there. -/
namespace SlotArrays

structure Table {κ : Type} (K : Keying κ) (ν : Type) where
  keys : Array κ
  values : Array ν
  count : Nat
  threshold : Nat
  loadFactor : LoadFactor

namespace Table
variable {κ ν : Type} {K : Keying κ}

/-! ### Reading -/

def size (t : Table K ν) : Nat := t.count
def isEmpty (t : Table K ν) : Bool := t.count == 0
def capacity (t : Table K ν) : Nat := t.keys.size

/-- The stored entries in slot order. -/
def entries (t : Table K ν) : List (κ × ν) :=
  (t.keys.toList.zip t.values.toList).filter fun entry => !K.vacates entry.1

/-! ### Making -/

section Making
variable [Inhabited ν]

/-- A table of vacant slots. -/
def vacant (slots : Nat) (loadFactor : LoadFactor) : Table K ν where
  keys := Array.replicate slots K.reserved
  values := Array.replicate slots default
  count := 0
  threshold := loadFactor.threshold slots
  loadFactor := loadFactor

def withCapacity (requested : Nat) : Table K ν := vacant (slotCount requested) .default

def empty : Table K ν := withCapacity defaultCapacity

def ofConfig (config : Config) : Except Refusal (Table K ν) :=
  config.resolve.map fun (slots, loadFactor) => vacant slots loadFactor

def withCapacityAndLoadFactor (requested : Nat) (loadFactor : Single) :
    Except Refusal (Table K ν) :=
  ofConfig ((Config.default.withCapacity requested).withLoadFactor loadFactor)

/-- The table asked for. -/
def make : TableMaking → Except Refusal (Table K ν)
  | .empty => .ok empty
  | .capacity requested => .ok (withCapacity requested)
  | .capacityAndLoadFactor requested loadFactor => withCapacityAndLoadFactor requested loadFactor
  | .config config => ofConfig config

end Making

/-! ### Single slots -/

/-- Calls on a table. -/
abbrev Action (K : Keying κ) (ν α : Type) := Call (Table K ν) TableEvent α

def keyAt (i : Nat) : Action K ν κ := do
  Call.lift (slotAt (← Call.view (·.keys)) i)

def valueAt (i : Nat) : Action K ν ν := do
  Call.lift (slotAt (← Call.view (·.values)) i)

def writeKey (i : Nat) (key : κ) : Action K ν Unit := do
  let size ← Call.view (·.keys.size)
  if i < size then Call.change fun t => {t with keys := t.keys.setIfInBounds i key}
  else Call.fail (.outOfRange i size)

def writeValue (i : Nat) (value : ν) : Action K ν Unit := do
  let size ← Call.view (·.values.size)
  if i < size then Call.change fun t => {t with values := t.values.setIfInBounds i value}
  else Call.fail (.outOfRange i size)

def countUp : Action K ν Unit := Call.change fun t => {t with count := t.count + 1}

def countDown : Action K ν Unit := do
  if (← Call.view (·.count)) = 0 then Call.fail .countUnderflow
  else Call.change fun t => {t with count := t.count - 1}

/-- Vacates slot `i` and answers what it held. -/
def takeSlot [Inhabited ν] (i : Nat) : Action K ν (κ × ν) := do
  let key ← keyAt i
  writeKey i K.reserved
  let value ← valueAt i
  writeValue i default
  countDown
  return (key, value)

end Table
end SlotArrays
