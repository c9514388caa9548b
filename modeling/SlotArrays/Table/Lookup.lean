import SlotArrays.Table.Basic

/-! Looking up.

Lookups take any form of the keys. None of them stores a key or vacates a slot;
`modify` writes the value of the entry that it finds. -/
namespace SlotArrays.Table
variable {κ ν θ : Type} {K : Keying κ}

/-- The slot of the entry for `q`. -/
def find (F : Form K θ) (q : θ) : Action K ν (Option Nat) := do
  Call.lift (Probe.find F (← Call.view (·.keys)) q)

def get (F : Form K θ) (q : θ) : Action K ν (Except Refusal ν) := do
  match ← find F q with
  | some i => return .ok (← valueAt i)
  | none => return .error .keyNotFound

/-- Replaces the value of an entry by its image under `f` and answers the old value. -/
def modify (F : Form K θ) (q : θ) (f : ν → ν) : Action K ν (Except Refusal ν) := do
  match ← find F q with
  | some i =>
    let value ← valueAt i
    writeValue i (f value)
    return .ok value
  | none => return .error .keyNotFound

def contains (F : Form K θ) (q : θ) : Action K ν Bool := do
  return (← find F q).isSome

end SlotArrays.Table
