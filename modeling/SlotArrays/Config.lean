import SlotArrays.LoadFactor

/-! Requests for a table.

A `Config` is what a caller asks for: a capacity and a load factor, neither of
them checked. `resolve` checks the load factor and rounds the capacity to a slot
count. -/
namespace SlotArrays

structure Config where
  capacity : Nat
  loadFactor : Single
deriving DecidableEq

namespace Config

/-- What a table is made from when nothing is asked for. -/
def default : Config := ⟨defaultCapacity, LoadFactor.default.single⟩

instance : Inhabited Config := ⟨default⟩

def withCapacity (c : Config) (capacity : Nat) : Config := {c with capacity}
def withLoadFactor (c : Config) (loadFactor : Single) : Config := {c with loadFactor}

def validate (c : Config) : Except Refusal Unit :=
  (LoadFactor.ofSingle c.loadFactor).map fun _ => ()

/-- Slots and load factor of the table asked for. -/
def resolve (c : Config) : Except Refusal (Nat × LoadFactor) :=
  (LoadFactor.ofSingle c.loadFactor).map (slotCount c.capacity, ·)

/-- The same request, load factors compared as numbers. -/
def agrees (a b : Config) : Bool := a.capacity == b.capacity && a.loadFactor.equals b.loadFactor

instance : Dump Config where
  doc c := .record "TableConfig"
    [("capacity", Dump.doc c.capacity), ("load_factor", .atom (c.loadFactor.text .ranged))]

end Config

/-- What a table is made from: nothing, a capacity, a capacity and a load factor, or a
whole configuration. -/
inductive TableMaking
  | empty
  | capacity (requested : Nat)
  | capacityAndLoadFactor (requested : Nat) (loadFactor : Single)
  | config (config : Config)
deriving DecidableEq

end SlotArrays
