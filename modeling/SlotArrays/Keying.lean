/-! What a table knows of its keys.

A `Keying` names the key that marks vacant slots and gives an equality and a hash.
The equality may be coarser than identity: then the slot shows the spelling stored
last. A `Form` is another type that lookups may be given in place of a key, such
as a view of its text; a key is brought into that form and compared there.

`Keying.Lawful` and `Form.Lawful` are what a caller owes: the equality is an
equivalence, equal keys have equal hashes, and a form compares and hashes as the
keys do. -/
namespace SlotArrays

structure Keying (κ : Type) where
  /-- The key that marks a vacant slot. -/
  reserved : κ
  same : κ → κ → Bool
  hash : κ → Int32

namespace Keying
variable {κ : Type}

/-- The slot that holds this key is vacant. -/
def vacates (K : Keying κ) (key : κ) : Bool := K.same key K.reserved

structure Lawful (K : Keying κ) : Prop where
  refl : ∀ a, K.same a a = true
  symm : ∀ {a b}, K.same a b = true → K.same b a = true
  trans : ∀ {a b c}, K.same a b = true → K.same b c = true → K.same a c = true
  hash_eq : ∀ {a b}, K.same a b = true → K.hash a = K.hash b

end Keying

/-- A form of the keys of `K` for lookups. -/
structure Form {κ : Type} (K : Keying κ) (θ : Type) where
  view : κ → θ
  same : θ → θ → Bool
  hash : θ → Int32

namespace Form
variable {κ θ : Type} {K : Keying κ}

structure Lawful (F : Form K θ) : Prop where
  refl : ∀ a, F.same a a = true
  symm : ∀ {a b}, F.same a b = true → F.same b a = true
  trans : ∀ {a b c}, F.same a b = true → F.same b c = true → F.same a c = true
  hash_eq : ∀ {a b}, F.same a b = true → F.hash a = F.hash b
  same_view : ∀ a b, F.same (F.view a) (F.view b) = K.same a b
  hash_view : ∀ a, F.hash (F.view a) = K.hash a

end Form

/-- Keys looked up as they are. -/
def Keying.self {κ : Type} (K : Keying κ) : Form K κ := ⟨id, K.same, K.hash⟩

theorem Keying.Lawful.self {κ : Type} {K : Keying κ} (h : K.Lawful) : K.self.Lawful :=
  ⟨h.refl, h.symm, h.trans, h.hash_eq, fun _ _ => rfl, fun _ => rfl⟩

end SlotArrays
