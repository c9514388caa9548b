import SlotArrays.Table.Basic

/-! How a table shows itself: its dump, its events and the faults of its calls. -/
namespace SlotArrays.Table
variable {κ ν : Type} {K : Keying κ}

instance [Dump κ] [Dump ν] : Dump (Table K ν) where
  doc t := .map (t.entries.map fun entry => (Dump.doc entry.1, Dump.doc entry.2))

def notice : TableEvent → Notice :=
  TableEvent.notice "hash table grew" "rehashed cluster after removal"

def faultMessage : Fault → String :=
  Fault.message "the default key marks empty slots and cannot be stored"

end SlotArrays.Table
