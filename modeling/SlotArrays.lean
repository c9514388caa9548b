import SlotArrays.IntTable.Operation
import SlotArrays.IntTable.Wording
import SlotArrays.Keying.Standard
import SlotArrays.Proofs.Hash.Fnv
import SlotArrays.Proofs.Hash.Murmur
import SlotArrays.Proofs.Hash.Spooky
import SlotArrays.Proofs.Hash.Wang
import SlotArrays.Proofs.IntTable.Twins
import SlotArrays.Proofs.LoadFactorLaw
import SlotArrays.Proofs.ProbeCourse
import SlotArrays.Proofs.Ring.CapacityLaw
import SlotArrays.Proofs.Ring.Invariant
import SlotArrays.Proofs.Ring.Iteration
import SlotArrays.Proofs.Rounding
import SlotArrays.Proofs.Table.CapacityLaw
import SlotArrays.Proofs.Table.Compaction
import SlotArrays.Proofs.Table.Faults
import SlotArrays.Proofs.Table.FullTable
import SlotArrays.Proofs.Table.Invariant
import SlotArrays.Proofs.Table.Nesting
import SlotArrays.Proofs.Table.Occupancy
import SlotArrays.Proofs.Table.Refinement
import SlotArrays.Ring.Operation
import SlotArrays.Ring.Wording
import SlotArrays.Table.Operation
import SlotArrays.Table.Wording
