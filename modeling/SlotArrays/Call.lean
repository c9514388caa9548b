/-! Calls on a container.

A call works on a container and a list of events (`Traced`). It either comes back
with an answer or breaks off with a `Fault`: a precondition of the call, of an
array access or of an arithmetic step did not hold. A call that breaks off leaves
whatever it had written by then, so that it changes nothing is a statement about
a call and not about this type. `Call.report` runs a call on a container and
gathers answer, container and events. -/
namespace SlotArrays

inductive Fault
  /-- The key to store marks vacant slots. -/
  | reservedKey
  /-- A doubled capacity does not fit the range of sizes. -/
  | capacityOverflow
  | outOfRange (index size : Nat)
  /-- One taken from a count of zero. -/
  | countUnderflow
  /-- A whole lap found neither the key nor a vacant slot. -/
  | endlessProbe
  /-- The walk behind a removal came to no vacant slot. -/
  | endlessWalk
deriving DecidableEq

/-- The wording of a fault, given the one for the reserved key. -/
def Fault.message (reserved : String) : Fault → String
  | reservedKey => reserved
  | capacityOverflow => "attempt to multiply with overflow"
  | outOfRange index size =>
    "index out of bounds: the len is " ++ toString size ++ " but the index is " ++ toString index
  | countUnderflow => "attempt to subtract with overflow"
  | endlessProbe => "the probe does not end"
  | endlessWalk => "the walk does not end"

/-- A container under a call, and the events emitted so far. -/
structure Traced (σ ε : Type) where
  held : σ
  events : List ε

abbrev Call (σ ε : Type) := EStateM Fault (Traced σ ε)

namespace Call
variable {σ ε α : Type}

/-- Reads from the container. -/
@[inline] def view (f : σ → α) : Call σ ε α := fun s => .ok (f s.held) s

/-- Writes to the container. -/
@[inline] def change (f : σ → σ) : Call σ ε Unit := fun s => .ok () {s with held := f s.held}

@[inline] def emit (e : ε) : Call σ ε Unit :=
  fun s => .ok () {s with events := s.events ++ [e]}

@[inline] def fail (f : Fault) : Call σ ε α := fun s => .error f s

/-- The answer of a computation that does not touch the container. -/
@[inline] def lift (r : Except Fault α) : Call σ ε α :=
  match r with
  | .ok a => pure a
  | .error f => fail f

/-- What a call answered or broke off with, and what it left. -/
structure Report (σ ε α : Type) where
  answer : Except Fault α
  held : σ
  events : List ε

/-- The call on a container, with no events yet. -/
def report (c : Call σ ε α) (s : σ) : Report σ ε α :=
  match c ⟨s, []⟩ with
  | .ok a t => ⟨.ok a, t.held, t.events⟩
  | .error f t => ⟨.error f, t.held, t.events⟩

end Call

/-- The element at `i`. -/
@[inline] def slotAt {α : Type} (slots : Array α) (i : Nat) : Except Fault α :=
  if h : i < slots.size then .ok slots[i] else .error (.outOfRange i slots.size)

end SlotArrays
