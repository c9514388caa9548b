import SlotArrays.IntTable.Basic

/-! How a table under 32-bit keys shows itself: its dump, its events and the faults of its
calls. -/
namespace SlotArrays.IntTable
variable {ν : Type}

instance [Dump ν] : Dump (IntTable ν) where
  doc t := .map (t.entries.map fun entry => (Dump.doc entry.1, Dump.doc entry.2))

def notice : TableEvent → Notice :=
  TableEvent.notice "int hash table grew" "rehashed int cluster after removal"

def faultMessage : Fault → String :=
  Fault.message "key 0 marks empty slots and cannot be stored"

end SlotArrays.IntTable
