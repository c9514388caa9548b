import Mathlib.Algebra.Ring.Nat
import Mathlib.Logic.Equiv.Basic
import SlotArrays.Hash.Spooky

/-! The short end loses nothing.

A turn sends its front word on to the end, only rotated. So the front word can be
read off the end, and with it what was mixed into the next word (`unturn`). This
holds for a rotation by any amount, and a list of turns is undone from its last turn
on (`unturned`). The short end is such a list, with the words named anew before and
behind it: a permutation of the states. The hash gives up information only where it
keeps the lower half of one word. -/
namespace SlotArrays.Hash.Spooky

/-! ### Rotations -/

theorem toNat_sub_mod (amount : UInt64) :
    (64 - amount).toNat % 64 = (64 - amount.toNat % 64) % 64 := by
  have hlt := amount.toNat_lt
  have hsub : (64 - amount).toNat = (2 ^ 64 - amount.toNat + 64) % 2 ^ 64 := UInt64.toNat_sub ..
  omega

/-- Every place of a rotated word takes one bit of the word. -/
theorem getLsbD_rotate (word amount : UInt64) {i : Nat} (hi : i < 64) :
    (rotate word amount).toBitVec.getLsbD i =
      word.toBitVec.getLsbD ((i + 64 - amount.toNat % 64) % 64) := by
  have hleft : (amount.toBitVec % 64).toNat = amount.toNat % 64 := rfl
  have hright : ((64 - amount).toBitVec % 64).toNat = (64 - amount.toNat % 64) % 64 :=
    toNat_sub_mod amount
  rw [rotate, UInt64.toBitVec_or, UInt64.toBitVec_shiftLeft, UInt64.toBitVec_shiftRight,
    BitVec.getLsbD_or, BitVec.shiftLeft_eq', BitVec.ushiftRight_eq', BitVec.getLsbD_shiftLeft,
    BitVec.getLsbD_ushiftRight, hleft, hright]
  by_cases hlow : i < amount.toNat % 64
  · rw [show (i + 64 - amount.toNat % 64) % 64 = (64 - amount.toNat % 64) % 64 + i by omega]
    simp [hi, hlow]
  · rw [show (i + 64 - amount.toNat % 64) % 64 = i - amount.toNat % 64 by omega]
    by_cases hzero : amount.toNat % 64 = 0
    · simp [hi, hzero]
    · have hout : word.toBitVec.getLsbD ((64 - amount.toNat % 64) % 64 + i) = false :=
        BitVec.getLsbD_of_ge _ _ (by omega)
      simp [hi, hlow, hout]

/-- The rest of the way around brings a word back. -/
theorem rotate_rotate_sub (word amount : UInt64) :
    rotate (rotate word amount) (64 - amount) = word := by
  apply UInt64.eq_of_toBitVec_eq
  apply BitVec.eq_of_getLsbD_eq
  intro i hi
  rw [getLsbD_rotate _ _ hi, getLsbD_rotate _ _ (Nat.mod_lt _ (by decide)), toNat_sub_mod]
  congr 1
  omega

theorem rotate_sub_rotate (word amount : UInt64) :
    rotate (rotate word (64 - amount)) amount = word := by
  have hback : 64 - (64 - amount) = amount := by grind
  have := rotate_rotate_sub word (64 - amount)
  rwa [hback] at this

/-! ### Turns -/

/-- A turn undone: the last word is the one that was in front. -/
def unturn (w : Words) (amount : UInt64) : Words :=
  let front := rotate w.d (64 - amount)
  ⟨front, (w.a - w.d) ^^^ front, w.b, w.c⟩

theorem unturn_turn (w : Words) (amount : UInt64) : unturn (turn w amount) amount = w := by
  simp only [unturn, turn, rotate_rotate_sub, UInt64.add_sub_cancel, UInt64.xor_assoc,
    UInt64.xor_self, UInt64.xor_zero]

theorem turn_unturn (w : Words) (amount : UInt64) : turn (unturn w amount) amount = w := by
  simp only [unturn, turn, rotate_sub_rotate, UInt64.sub_add_cancel, UInt64.xor_assoc,
    UInt64.xor_self, UInt64.xor_zero]

/-- A list of turns undone, the last one first. -/
def unturned (amounts : List UInt64) (w : Words) : Words :=
  amounts.foldr (fun amount w => unturn w amount) w

theorem unturned_foldl (amounts : List UInt64) (w : Words) :
    unturned amounts (amounts.foldl turn w) = w := by
  induction amounts generalizing w with
  | nil => rfl
  | cons amount rest ih =>
    show unturn (unturned rest (rest.foldl turn (turn w amount))) amount = w
    rw [ih, unturn_turn]

theorem foldl_unturned (amounts : List UInt64) (w : Words) :
    amounts.foldl turn (unturned amounts w) = w := by
  induction amounts generalizing w with
  | nil => rfl
  | cons amount rest ih =>
    show rest.foldl turn (turn (unturn (unturned rest w) amount) amount) = w
    rw [turn_unturn, ih]

/-! ### The short end -/

/-- The short end undone: its last words are read with the second in front, where the turns
have left off, and those from before the turns with the third. -/
def unshortEnd (w : Words) : Words :=
  let begun := unturned amounts ⟨w.b, w.c, w.d, w.a⟩
  ⟨begun.c, begun.d, begun.a, begun.b⟩

theorem unshortEnd_shortEnd (w : Words) : unshortEnd (shortEnd w) = w := by
  have hturns := unturned_foldl amounts ⟨w.c, w.d, w.a, w.b⟩
  exact congrArg (fun begun : Words => Words.mk begun.c begun.d begun.a begun.b) hturns

theorem shortEnd_unshortEnd (w : Words) : shortEnd (unshortEnd w) = w := by
  have hturns := foldl_unturned amounts ⟨w.b, w.c, w.d, w.a⟩
  exact congrArg (fun turned : Words => Words.mk turned.d turned.a turned.b turned.c) hturns

def mixed : Equiv.Perm Words :=
  ⟨shortEnd, unshortEnd, unshortEnd_shortEnd, shortEnd_unshortEnd⟩

theorem start_injective : Function.Injective start := by
  intro key key' h
  have hword : seed + key.toUInt64 = seed + key'.toUInt64 := congrArg Words.c h
  exact congrArg UInt64.toInt64 ((UInt64.add_right_inj seed).mp hword)

/-- **The short end is a permutation of the states, so different keys come to different states.**
The hash is what the lower half of one of the words says. -/
theorem lossless_until_cut :
    Function.Bijective shortEnd ∧ Function.Injective (fun key => shortEnd (start key)) ∧
    ∀ key, (hash key).toUInt32.toNat = (shortEnd (start key)).c.toNat % 2 ^ 32 :=
  ⟨mixed.bijective, mixed.injective.comp start_injective, fun _ => UInt64.toNat_toUInt32 _⟩

end SlotArrays.Hash.Spooky
