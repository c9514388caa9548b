import SlotArrays.Table.Insertion
import SlotArrays.Table.Lookup

/-! Removing an entry.

A vacated slot would end the probes for entries stored behind it. So the walk goes
on from there, takes every entry up to the next vacant slot out and stores it
again, from its own home slot. In a table that was full the vacated slot moves
ahead of the walk and is met in the second lap at the latest; `rehashAfterWith`
allows the walk that many steps. -/
namespace SlotArrays.Table
variable {κ ν θ : Type} {K : Keying κ} [Inhabited ν]

/-- Takes out the entries from slot `i` on, up to a vacant slot, in an array of `slots`
slots, and stores each again with `insert`. Answers how many, `moved` of them before. -/
def rehashWith (insert : κ → ν → Action K ν Unit) (slots : Nat) :
    Nat → Nat → Nat → Action K ν Nat
  | 0, _, _ => Call.fail .endlessWalk
  | steps + 1, i, moved => do
    if K.vacates (← keyAt i) then return moved
    else
      let (key, value) ← takeSlot i
      insert key value
      rehashWith insert slots steps (wrap slots (i + 1)) (moved + 1)

/-- The walk behind a vacated slot. `loop` is given the number of slots and, as `rehashWith`
is, how many steps it may take, where it begins and how many entries it has moved. -/
def rehashAfterWith (loop : Nat → Nat → Nat → Nat → Action K ν Nat) (i : Nat) :
    Action K ν Unit := do
  let slots ← Call.view capacity
  let moved ← loop slots (2 * slots) (wrap slots (i + 1)) 0
  if 0 < moved then Call.emit (.rehashed moved)

def rehashAfter (i : Nat) : Action K ν Unit := rehashAfterWith (rehashWith insert) i

/-- Removes the entry for `q`, with `rehash` for the walk behind its slot, and answers whether there
was one. -/
def eraseWith (rehash : Nat → Action K ν Unit) (F : Form K θ) (q : θ) : Action K ν Bool := do
  match ← find F q with
  | none => return false
  | some i =>
    let _ ← takeSlot i
    rehash i
    return true

def erase (F : Form K θ) (q : θ) : Action K ν Bool := eraseWith rehashAfter F q

end SlotArrays.Table
