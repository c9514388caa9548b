import SlotArrays.Ring.Cursor
import SlotArrays.Text.Doc

/-! How a ring shows itself: its dump and the faults of its calls. -/
namespace SlotArrays.Ring
variable {α : Type}

instance [Dump α] : Dump (Ring α) where
  doc r := .list ((r.items.toOption.getD []).map Dump.doc)

/-- The wording of a fault. No key is reserved in a ring. -/
def faultMessage : Fault → String := Fault.message ""

end SlotArrays.Ring
