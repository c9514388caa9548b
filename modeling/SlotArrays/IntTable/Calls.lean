import SlotArrays.IntTable.Basic
import SlotArrays.Table.Insertion

/-! Calls on a table under 32-bit keys: looking up, storing, removing.

Storing and growing nest as deep as doublings of the capacity fit the range of
sizes, and the walk behind a removal ends within two laps. -/
namespace SlotArrays.IntTable
variable {ν : Type}

/-! ### Looking up -/

def get (key : Int32) : Action ν (Except Refusal ν) := do
  match ← find key with
  | some i => return .ok (← valueAt i)
  | none => return .error .keyNotFound

/-- Replaces the value of an entry by its image under `f` and answers the old value. -/
def modify (key : Int32) (f : ν → ν) : Action ν (Except Refusal ν) := do
  match ← find key with
  | some i =>
    let value ← valueAt i
    writeValue i (f value)
    return .ok value
  | none => return .error .keyNotFound

def contains (key : Int32) : Action ν Bool := do
  return (← find key).isSome

/-! ### Storing -/

/-- Writes an entry to its slot, and counts it if the slot was vacant. -/
def store (key : Int32) (value : ν) : Action ν Unit := do
  let i ← seat key
  let isNew := (← keyAt i) == vacantKey
  writeKey i key
  writeValue i value
  if isNew then countUp

/-- Stores an entry; `grow` is called when the count has reached the threshold. -/
def insertWith (grow : Action ν Unit) (key : Int32) (value : ν) : Action ν Unit := do
  if key == vacantKey then Call.fail .reservedKey
  else
    let full ← Call.view fun t => decide (t.threshold ≤ t.count)
    if full then grow
    store key value

variable [Inhabited ν]

/-- Moves every entry into new, larger slot arrays; `insert` stores one. -/
def growWith (insert : Int32 → ν → Action ν Unit) : Action ν Unit := do
  let old ← Call.view id
  match old.loadFactor.grown? old.count old.capacity with
  | none => Call.fail .capacityOverflow
  | some slots =>
    Call.change fun t => vacant slots t.loadFactor
    old.entries.forM fun entry => insert entry.1 entry.2
    Call.emit (.grew old.capacity slots old.count)

/-- Stores an entry, with growth nested at most `depth` deep. -/
def insertWithin : Nat → Int32 → ν → Action ν Unit
  | 0 => insertWith (Call.fail .capacityOverflow)
  | depth + 1 => insertWith (growWith (insertWithin depth))

/-- Stores `value` under `key`, in place of the value that was there. -/
def insert (key : Int32) (value : ν) : Action ν Unit := insertWithin 64 key value

/-! ### Removing -/

/-- Vacates slot `i` and answers what it held. -/
def takeSlot (i : Nat) : Action ν (Int32 × ν) := do
  let key ← keyAt i
  writeKey i vacantKey
  let value ← valueAt i
  writeValue i default
  countDown
  return (key, value)

/-- Takes out the entries from slot `i` on, up to a vacant slot, in an array of `slots`
slots, and stores each again with `insert`. Answers how many, `moved` of them before. -/
def rehashWith (insert : Int32 → ν → Action ν Unit) (slots : Nat) :
    Nat → Nat → Nat → Action ν Nat
  | 0, _, _ => Call.fail .endlessWalk
  | steps + 1, i, moved => do
    if (← keyAt i) == vacantKey then return moved
    else
      let (key, value) ← takeSlot i
      insert key value
      rehashWith insert slots steps (wrap slots (i + 1)) (moved + 1)

/-- The walk behind a vacated slot. -/
def rehashAfter (i : Nat) : Action ν Unit := do
  let slots ← Call.view capacity
  let moved ← rehashWith insert slots (2 * slots) (wrap slots (i + 1)) 0
  if 0 < moved then Call.emit (.rehashed moved)

/-- Removes the entry for `key`, and answers whether there was one. -/
def erase (key : Int32) : Action ν Bool := do
  match ← find key with
  | none => return false
  | some i =>
    let _ ← takeSlot i
    rehashAfter i
    return true

end SlotArrays.IntTable
