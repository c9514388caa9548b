import SlotArrays.Table.Removal

/-! Operations as data, and runs.

A `TableOp` is a call on a table with its arguments and a `TableAnswer` is what it
comes back with, so that a run is a list. A call that breaks off is part of the run: it
is answered by its fault, and the run goes on with what the call left. -/
namespace SlotArrays

inductive TableOp (κ θ ν : Type)
  | insert (key : κ) (value : ν)
  | get (query : θ)
  /-- Replaces the value of an entry. -/
  | replace (query : θ) (value : ν)
  | contains (query : θ)
  | erase (query : θ)
  | entries
  | size
  | isEmpty

inductive TableAnswer (κ ν : Type)
  | done
  | value (value : ν)
  | truth (truth : Bool)
  | number (number : Nat)
  | entries (entries : List (κ × ν))
  | refused (refusal : Refusal)
deriving DecidableEq

def TableAnswer.ofResult {κ ν : Type} : Except Refusal ν → TableAnswer κ ν
  | .ok v => value v
  | .error r => refused r

namespace Table
variable {κ ν θ : Type} {K : Keying κ} [Inhabited ν]

def perform (F : Form K θ) : TableOp κ θ ν → Action K ν (TableAnswer κ ν)
  | .insert key value => do
    insert key value
    return .done
  | .get q => return .ofResult (← get F q)
  | .replace q value => return .ofResult (← modify F q fun _ => value)
  | .contains q => return .truth (← contains F q)
  | .erase q => return .truth (← erase F q)
  | .entries => return .entries (← Call.view entries)
  | .size => return .number (← Call.view size)
  | .isEmpty => return .truth (← Call.view isEmpty)

/-- One operation on a table. -/
def step (F : Form K θ) (t : Table K ν) (op : TableOp κ θ ν) :
    Call.Report (Table K ν) TableEvent (TableAnswer κ ν) :=
  (perform F op).report t

/-- The reports of a list of operations, each on the table that the one before it left. -/
def run (F : Form K θ) (t : Table K ν) : List (TableOp κ θ ν) →
    List (Call.Report (Table K ν) TableEvent (TableAnswer κ ν))
  | [] => []
  | op :: ops =>
    let report := step F t op
    report :: run F report.held ops

/-- The table that a list of operations leaves. -/
def after (F : Form K θ) (t : Table K ν) (ops : List (TableOp κ θ ν)) : Table K ν :=
  ops.foldl (fun t op => (step F t op).held) t

end Table
end SlotArrays
