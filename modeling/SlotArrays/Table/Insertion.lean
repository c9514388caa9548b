import SlotArrays.Table.Basic

/-! Storing an entry, and growth.

Storing first lets the table grow when the count has reached the threshold, also
where it then only replaces a value. Growth makes new slot arrays and stores
every entry into them in slot order, which is storing again: `insertWithin` counts
how deep growth may nest. Each growth at least doubles the capacity, so beyond
64 of them no capacity is left in the range of sizes, and the bound is the
overflow that the doubling itself would meet. -/
namespace SlotArrays

/-- The capacity that `live` entries grow to: the first doubling of the present one
whose threshold is above `live`. -/
def LoadFactor.grown? (f : LoadFactor) (live capacity : Nat) : Option Nat :=
  (doublings capacity).find? fun slots => live < f.threshold slots

namespace Table
variable {κ ν : Type} {K : Keying κ}

/-- The slot where `key` is or goes. -/
def seat (key : κ) : Action K ν Nat := do
  Call.lift (Probe.seat K (← Call.view (·.keys)) key)

/-- Writes an entry to its slot, and counts it if the slot was vacant. -/
def store (key : κ) (value : ν) : Action K ν Unit := do
  let i ← seat key
  let isNew := K.vacates (← keyAt i)
  writeKey i key
  writeValue i value
  if isNew then countUp

/-- Stores an entry; `grow` is called when the count has reached the threshold. -/
def insertWith (grow : Action K ν Unit) (key : κ) (value : ν) : Action K ν Unit := do
  if K.vacates key then Call.fail .reservedKey
  else
    let full ← Call.view fun t => decide (t.threshold ≤ t.count)
    if full then grow
    store key value

variable [Inhabited ν]

/-- Moves every entry into new, larger slot arrays; `insert` stores one. -/
def growWith (insert : κ → ν → Action K ν Unit) : Action K ν Unit := do
  let old ← Call.view id
  match old.loadFactor.grown? old.count old.capacity with
  | none => Call.fail .capacityOverflow
  | some slots =>
    Call.change fun t => vacant slots t.loadFactor
    old.entries.forM fun entry => insert entry.1 entry.2
    Call.emit (.grew old.capacity slots old.count)

/-- Stores an entry, with growth nested at most `depth` deep. -/
def insertWithin : Nat → κ → ν → Action K ν Unit
  | 0 => insertWith (Call.fail .capacityOverflow)
  | depth + 1 => insertWith (growWith (insertWithin depth))

/-- Stores `value` under `key`. An entry with an equal key is replaced, key and value. -/
def insert (key : κ) (value : ν) : Action K ν Unit := insertWithin 64 key value

end Table
end SlotArrays
