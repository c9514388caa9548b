import Mathlib.Logic.Equiv.Fin.Basic
import Mathlib.SetTheory.Cardinal.Finite
import SlotArrays.Hash.Murmur

/-! The finishing mix loses nothing.

A fold leaves the upper half of a word as it was, so that folding again takes away
what was folded in (`fold_fold`), and an odd factor has an inverse. So the mix can be
undone step by step (`unmix`) and is a permutation of the words. What the hash loses
is the upper half of the mixed word, and that half is free: equally many keys go to
every hash. -/
namespace SlotArrays.Hash.Murmur

/-! ### Undoing the mix -/

theorem fold_fold (word : UInt64) : fold (fold word) = word := by
  have hgone : word >>> 33 >>> 33 = 0 := by
    rw [← UInt64.toNat_inj]
    simp only [UInt64.toNat_shiftRight, UInt64.reduceToNat, Nat.reduceMod, ← Nat.shiftRight_add]
    exact Nat.shiftRight_eq_zero _ _ (word.toNat_lt.trans (by decide))
  simp only [fold, UInt64.shiftRight_xor, hgone, UInt64.xor_zero, UInt64.xor_assoc,
    UInt64.xor_self]

def firstInverse : UInt64 := 0x4f74430c22a54005
def secondInverse : UInt64 := 0x9cb4b2f8129337db

theorem first_mul_inverse : first * firstInverse = 1 := by decide

theorem second_mul_inverse : second * secondInverse = 1 := by decide

/-- The steps of the mix undone, the last one first. -/
def unmix (word : UInt64) : UInt64 := fold (fold (fold word * secondInverse) * firstInverse)

theorem unmix_mix (word : UInt64) : unmix (mix word) = word := by
  simp only [unmix, mix, fold_fold, UInt64.mul_assoc, second_mul_inverse, first_mul_inverse,
    UInt64.mul_one]

theorem mix_unmix (word : UInt64) : mix (unmix word) = word := by
  have hfirst : firstInverse * first = 1 := by rw [UInt64.mul_comm, first_mul_inverse]
  have hsecond : secondInverse * second = 1 := by rw [UInt64.mul_comm, second_mul_inverse]
  simp only [unmix, mix, fold_fold, UInt64.mul_assoc, hfirst, hsecond, UInt64.mul_one]

def mixed : Equiv.Perm UInt64 := ⟨mix, unmix, unmix_mix, mix_unmix⟩

/-! ### The keys of a hash -/

/-- A key as a word of the same bits. -/
def bits : Int64 ≃ UInt64 :=
  ⟨Int64.toUInt64, UInt64.toInt64, Int64.toInt64_toUInt64, UInt64.toUInt64_toInt64⟩

/-- The lower and the upper half of a word. -/
def halves : UInt64 ≃ Fin (2 ^ 32) × Fin (2 ^ 32) :=
  let number : UInt64 ≃ Fin (2 ^ 32 * 2 ^ 32) :=
    ⟨UInt64.toFin, UInt64.ofFin, fun _ => rfl, fun _ => rfl⟩
  number.trans (finProdFinEquiv.symm.trans (Equiv.prodComm _ _))

/-- The halves that the mix makes of a key. -/
def spread : Int64 ≃ Fin (2 ^ 32) × Fin (2 ^ 32) := bits.trans (mixed.trans halves)

/-- The hash is the lower half, read with a sign. -/
theorem hash_eq_iff (key : Int64) (h : Int32) :
    hash key = h ↔ (spread key).1 = h.toUInt32.toFin := by
  have hlower : (spread key).1 = (mix key.toUInt64).toUInt32.toFin := rfl
  rw [hlower, UInt32.toFin_inj, hash]
  constructor
  · rintro rfl
    rfl
  · intro heq
    rw [heq, Int32.toInt32_toUInt32]

theorem card_hash_eq (h : Int32) : Nat.card {key : Int64 // hash key = h} = 2 ^ 32 := by
  calc
    Nat.card {key : Int64 // hash key = h}
      = Nat.card {half : Fin (2 ^ 32) × Fin (2 ^ 32) // half.1 = h.toUInt32.toFin} :=
        Nat.card_congr (spread.subtypeEquiv fun key => hash_eq_iff key h)
    _ = Nat.card ({lower : Fin (2 ^ 32) // lower = h.toUInt32.toFin} × Fin (2 ^ 32)) :=
        Nat.card_congr (Equiv.prodSubtypeFstEquivSubtypeProd (p := (· = h.toUInt32.toFin)))
    _ = 2 ^ 32 := by rw [Nat.card_prod, Nat.card_unique, Nat.card_fin, Nat.one_mul]

/-- **The mix is a permutation of the words, and every hash is the hash of `2 ^ 32` keys.** -/
theorem evenly_spread :
    Function.Bijective mix ∧ ∀ h : Int32, Nat.card {key : Int64 // hash key = h} = 2 ^ 32 :=
  ⟨mixed.bijective, card_hash_eq⟩

end SlotArrays.Hash.Murmur
