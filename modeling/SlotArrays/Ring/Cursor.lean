import SlotArrays.Ring.Basic

/-! Walking over a ring.

A cursor stands in front of one place of the queue, 0 for the first item, and
counts the places it has passed. It stops at the end, however often it is asked
for more. -/
namespace SlotArrays

/-- A place in a ring. -/
structure Cursor (α : Type) where
  ring : Ring α
  offset : Nat

namespace Cursor
variable {α : Type}

/-- The item at the cursor, with the cursor behind it. -/
def next (c : Cursor α) : Except Fault (Option α × Cursor α) :=
  if c.ring.count ≤ c.offset then .ok (none, c)
  else do
    let item ← slotAt c.ring.slots (wrap c.ring.capacity (c.ring.head + c.offset))
    return (item, {c with offset := c.offset + 1})

/-- The answers of so many calls of `next`. -/
def nexts : Nat → Cursor α → Except Fault (List (Option α) × Cursor α)
  | 0, c => .ok ([], c)
  | n + 1, c => do
    let (item, c) ← c.next
    let (items, c) ← nexts n c
    return (item :: items, c)

/-- Items that are left, as a number. -/
def left (c : Cursor α) : Except Fault Nat :=
  if c.ring.count < c.offset then .error .countUnderflow else .ok (c.ring.count - c.offset)

/-- A lower and an upper bound for the items that are left. -/
def sizeHint (c : Cursor α) : Except Fault (Nat × Option Nat) := do
  let left ← c.left
  return (left, some left)

/-- The items from the cursor on, up to the first `next` that answers none; `steps` bounds
the calls. -/
def drain : Nat → Cursor α → Except Fault (List α)
  | 0, _ => .ok []
  | steps + 1, c => do
    match ← c.next with
    | (none, _) => return []
    | (some item, c) => return item :: (← drain steps c)

end Cursor

namespace Ring
variable {α : Type}

/-- A cursor in front of the first item. -/
def cursor (r : Ring α) : Cursor α := ⟨r, 0⟩

/-- The items from first to last. -/
def items (r : Ring α) : Except Fault (List α) := r.cursor.drain (r.count + 1)

end Ring
end SlotArrays
