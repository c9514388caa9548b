import SlotArrays.Ring.Cursor

/-! Operations as data, and runs of a ring. A call that breaks off is answered by its fault,
and the run goes on with what the call left. -/
namespace SlotArrays

/-- What a ring is made from: nothing, a capacity, or items with a lower bound on how many
are expected. -/
inductive RingMaking (α : Type)
  | empty
  | capacity (requested : Nat)
  | items (expected : Nat) (items : List α)

inductive RingOp (α : Type)
  | enqueue (item : α)
  | extend (items : List α)
  | dequeue
  | peek
  | items
  /-- So many steps of a new cursor, and what is left then. -/
  | steps (number : Nat)
  | size
  | isEmpty

inductive RingAnswer (α : Type)
  | done
  | item (item : α)
  | truth (truth : Bool)
  | number (number : Nat)
  | items (items : List α)
  | stepped (items : List (Option α)) (left : Nat) (sizeHint : Nat × Option Nat)
  | refused (refusal : Refusal)
deriving DecidableEq

def RingAnswer.ofResult {α : Type} : Except Refusal α → RingAnswer α
  | .ok a => item a
  | .error r => refused r

namespace Ring
variable {α : Type}

/-- The ring asked for, with the events of its making. -/
def make : RingMaking α → Call.Report (Ring α) RingEvent Unit
  | .empty => ⟨.ok (), empty, []⟩
  | .capacity requested => ⟨.ok (), withCapacity requested, []⟩
  | .items expected items => collect expected items

def perform : RingOp α → Action α (RingAnswer α)
  | .enqueue item => do
    enqueue item
    return .done
  | .extend items => do
    extend items
    return .done
  | .dequeue => return .ofResult (← dequeue)
  | .peek => return .ofResult (← peek)
  | .items => return .items (← Call.lift (← Call.view items))
  | .steps number => do
    let (items, cursor) ← Call.lift ((← Call.view cursor).nexts number)
    return .stepped items (← Call.lift cursor.left) (← Call.lift cursor.sizeHint)
  | .size => return .number (← Call.view size)
  | .isEmpty => return .truth (← Call.view isEmpty)

/-- One operation on a ring. -/
def step (r : Ring α) (op : RingOp α) : Call.Report (Ring α) RingEvent (RingAnswer α) :=
  (perform op).report r

/-- The reports of a list of operations, each on the ring that the one before it left. -/
def run (r : Ring α) : List (RingOp α) → List (Call.Report (Ring α) RingEvent (RingAnswer α))
  | [] => []
  | op :: ops =>
    let report := step r op
    report :: run report.held ops

/-- The ring that a list of operations leaves. -/
def after (r : Ring α) (ops : List (RingOp α)) : Ring α :=
  ops.foldl (fun r op => (step r op).held) r

end Ring
end SlotArrays
