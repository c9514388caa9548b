/-! Events.

A container tells of its growth and of the entries it moves. The events are data;
a `Notice` is how one is shown: a level, a message and named numbers. -/
namespace SlotArrays

inductive Level
  | debug
  | trace
deriving DecidableEq

def Level.text : Level → String
  | debug => "DEBUG"
  | trace => "TRACE"

structure Notice where
  level : Level
  message : String
  fields : List (String × Nat)
deriving DecidableEq

/-- What a table tells of. -/
inductive TableEvent
  /-- The slots were replaced by more of them, with `live` entries to move. -/
  | grew (oldCapacity newCapacity live : Nat)
  /-- The walk behind a removal stored `moved` entries anew. -/
  | rehashed (moved : Nat)
deriving DecidableEq

/-- What a ring tells of. -/
inductive RingEvent
  | grew (oldCapacity newCapacity : Nat)
deriving DecidableEq

/-- A table's event under the messages for growth and for a walk. -/
def TableEvent.notice (growth walk : String) : TableEvent → Notice
  | grew oldCapacity newCapacity live =>
    ⟨.debug, growth,
      [("old_capacity", oldCapacity), ("new_capacity", newCapacity), ("live", live)]⟩
  | rehashed moved => ⟨.trace, walk, [("moved", moved)]⟩

def RingEvent.notice : RingEvent → Notice
  | grew oldCapacity newCapacity =>
    ⟨.debug, "circular queue grew", [("old_capacity", oldCapacity), ("new_capacity", newCapacity)]⟩

end SlotArrays
