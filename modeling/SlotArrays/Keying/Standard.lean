import SlotArrays.Hash.Fnv
import SlotArrays.Hash.Murmur
import SlotArrays.Hash.Spooky
import SlotArrays.Hash.Wang
import SlotArrays.Keying

/-! The keyings that come with the hashes. Numbers keep 0 back, texts the empty one. -/
namespace SlotArrays.Keying

/-- Keys that are equal only to themselves. -/
def plain {κ : Type} [DecidableEq κ] (reserved : κ) (hash : κ → Int32) : Keying κ :=
  ⟨reserved, (· == ·), hash⟩

theorem plain_lawful {κ : Type} [DecidableEq κ] (reserved : κ) (hash : κ → Int32) :
    (plain reserved hash).Lawful where
  refl a := by simp [plain]
  symm h := by simp_all [plain]
  trans h k := by simp_all [plain]
  hash_eq h := by simp_all [plain]

def wang : Keying Int32 := plain 0 Hash.wang
def murmur : Keying Int64 := plain 0 Hash.Murmur.hash
def spooky : Keying Int64 := plain 0 Hash.Spooky.hash
def fnv : Keying String := plain "" Hash.Fnv.hash

end SlotArrays.Keying
