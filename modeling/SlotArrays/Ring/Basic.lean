import SlotArrays.Call
import SlotArrays.Capacity
import SlotArrays.Event
import SlotArrays.Refusal

/-! Rings: first in, first out.

A ring is an array of slots whose length is a power of two. The items stand in
`count` slots from `head` on, around the end of the array, and the next one goes
into slot `tail`. An item that comes to a full ring doubles the array first, and
the items move to its beginning. Nothing makes a ring smaller. -/
namespace SlotArrays

structure Ring (α : Type) where
  /-- A vacant slot holds nothing. -/
  slots : Array (Option α)
  /-- The slot of the first item. -/
  head : Nat
  /-- The slot that the next item goes into. -/
  tail : Nat
  count : Nat

namespace Ring
variable {α : Type}

/-! ### Reading and making -/

def size (r : Ring α) : Nat := r.count
def isEmpty (r : Ring α) : Bool := r.count == 0
def capacity (r : Ring α) : Nat := r.slots.size

/-- A ring of vacant slots. -/
def vacant (slots : Nat) : Ring α := ⟨Array.replicate slots none, 0, 0, 0⟩

def withCapacity (requested : Nat) : Ring α := vacant (slotCount requested)

def empty : Ring α := withCapacity defaultRingCapacity

/-! ### Calls -/

/-- Calls on a ring. -/
abbrev Action (α β : Type) := Call (Ring α) RingEvent β

def slot (i : Nat) : Action α (Option α) := do
  Call.lift (slotAt (← Call.view (·.slots)) i)

def writeSlot (i : Nat) (item : Option α) : Action α Unit := do
  let size ← Call.view (·.slots.size)
  if i < size then Call.change fun r => {r with slots := r.slots.setIfInBounds i item}
  else Call.fail (.outOfRange i size)

/-- Moves the items from place `i` of the queue on out of the slots of `old`, into the slots
from `i` on. -/
def moveFrom (old : Ring α) : Nat → Nat → Action α Unit
  | 0, _ => return ()
  | left + 1, i => do
    let item ← Call.lift (slotAt old.slots (wrap old.capacity (old.head + i)))
    writeSlot i item
    moveFrom old left (i + 1)

/-- Doubles the slots. The items stand in the first ones afterwards, in order. -/
def grow : Action α Unit := do
  let old ← Call.view id
  let doubled := old.capacity * 2
  if sizeLimit ≤ doubled then Call.fail .capacityOverflow
  else
    Call.change fun r => {r with slots := Array.replicate doubled none}
    moveFrom old old.count 0
    Call.change fun r => {r with head := 0, tail := r.count}
    Call.emit (.grew old.capacity doubled)

/-- Writes an item to the slot behind the last one. -/
def append (item : α) : Action α Unit := do
  writeSlot (← Call.view (·.tail)) (some item)
  Call.change fun r =>
    {r with tail := wrap r.capacity (r.tail + 1), count := r.count + 1}

/-- Appends an item, after growth if the ring is full. -/
def enqueue (item : α) : Action α Unit := do
  let full ← Call.view fun r => r.count == r.slots.size
  if full then grow
  append item

/-- Removes the first item and answers it. -/
def dequeue : Action α (Except Refusal α) := do
  if (← Call.view isEmpty) then return .error .empty
  let head ← Call.view (·.head)
  let item ← slot head
  writeSlot head none
  Call.change fun r =>
    {r with head := wrap r.capacity (r.head + 1), count := r.count - 1}
  match item with
  | some item => return .ok item
  | none => return .error .empty

/-- The first item. -/
def peek : Action α (Except Refusal α) := do
  if (← Call.view isEmpty) then return .error .empty
  match ← slot (← Call.view (·.head)) with
  | some item => return .ok item
  | none => return .error .empty

/-- Appends items in order. -/
def extend (items : List α) : Action α Unit := items.forM enqueue

/-- A ring with the given items, made for at least `expected` of them. What is expected need
not be what comes. -/
def collect (expected : Nat) (items : List α) : Call.Report (Ring α) RingEvent Unit :=
  (extend items).report (withCapacity (max expected defaultRingCapacity))

end Ring
end SlotArrays
