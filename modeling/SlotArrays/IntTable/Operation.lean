import SlotArrays.IntTable.Calls
import SlotArrays.Table.Operation

/-! Operations and runs of a table under 32-bit keys. The operations are those of any
table, with keys looked up as they are. -/
namespace SlotArrays.IntTable
variable {ν : Type} [Inhabited ν]

def perform : TableOp Int32 Int32 ν → Action ν (TableAnswer Int32 ν)
  | .insert key value => do
    insert key value
    return .done
  | .get key => return .ofResult (← get key)
  | .replace key value => return .ofResult (← modify key fun _ => value)
  | .contains key => return .truth (← contains key)
  | .erase key => return .truth (← erase key)
  | .entries => return .entries (← Call.view entries)
  | .size => return .number (← Call.view size)
  | .isEmpty => return .truth (← Call.view isEmpty)

/-- One operation on a table. -/
def step (t : IntTable ν) (op : TableOp Int32 Int32 ν) :
    Call.Report (IntTable ν) TableEvent (TableAnswer Int32 ν) :=
  (perform op).report t

/-- The reports of a list of operations, each on the table that the one before it left. -/
def run (t : IntTable ν) : List (TableOp Int32 Int32 ν) →
    List (Call.Report (IntTable ν) TableEvent (TableAnswer Int32 ν))
  | [] => []
  | op :: ops =>
    let report := step t op
    report :: run report.held ops

/-- The table that a list of operations leaves. -/
def after (t : IntTable ν) (ops : List (TableOp Int32 Int32 ν)) : IntTable ν :=
  ops.foldl (fun t op => (step t op).held) t

end SlotArrays.IntTable
