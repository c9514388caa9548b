import Mathlib.Data.Set.Card
import SlotArrays.IntTable.Basic
import SlotArrays.Keying.Standard
import SlotArrays.Proofs.SlotCircle
import SlotArrays.Table.Basic

/-! Which 32-bit keys collide.

The upper half of a key comes down with the sign drawn along, so a key and its complement are
mixed alike. Mixed twice, a key comes back but for which of the two it was (`wang_wang`). So
the mix undoes itself on the numbers that are not negative, and each of these is the hash of
two keys, one of which is the complement of the other. Tables begin their probes for the two
at one slot. -/
namespace SlotArrays.Hash
variable {a b key h : Int32}

/-! ### A key and its complement -/

/-- Of a key and its complement the one that is not negative. -/
def representative (key : Int32) : Int32 := if key < 0 then ~~~key else key

theorem representative_of_nonneg (h : 0 ≤ key) : representative key = key :=
  if_neg (Int32.not_lt.mpr h)

theorem representative_nonneg (key : Int32) : 0 ≤ representative key := by
  unfold representative
  split
  next hneg =>
    have hmin := key.le_toInt
    have hlt : key.toInt < 0 := Int32.lt_iff_toInt_lt.mp hneg
    rw [Int32.le_iff_toInt_le, Int32.toInt_not, Int.bmod_eq_of_le (by omega) (by omega)]
    show 0 ≤ -key.toInt - 1
    omega
  next hpos => exact Int32.not_lt.mp hpos

theorem eq_or_eq_not (h : representative a = representative b) : a = b ∨ a = ~~~b := by
  unfold representative at h
  split at h <;> split at h
  · exact .inl (Int32.not_inj.mp h)
  · rw [← h, Int32.not_not]
    exact .inr rfl
  · exact .inr h
  · exact .inl h

/-! ### Mixing twice -/

theorem toInt_upper (key : Int32) : (key >>> 16).toInt = key.toInt / 2 ^ 16 := by
  show (key.toBitVec.sshiftRight 16).toInt = _
  rw [BitVec.toInt_sshiftRight, Int.shiftRight_eq_div_pow]
  rfl

/-- Shifted by half its width twice, a key is its sign all over. -/
theorem upper_upper (key : Int32) : key >>> 16 >>> 16 = if key < 0 then -1 else 0 := by
  have hmin := key.le_toInt
  have hmax := key.toInt_lt
  rw [← Int32.toInt_inj, toInt_upper, toInt_upper]
  -- A number of 32 bits over `2 ^ 16`, and once more, is rounded down to -1 or to 0.
  split
  next hneg =>
    have hlt : key.toInt < 0 := Int32.lt_iff_toInt_lt.mp hneg
    show _ = -1
    omega
  next hpos =>
    have hle : 0 ≤ key.toInt := Int32.le_iff_toInt_le.mp (Int32.not_lt.mp hpos)
    show _ = 0
    omega

theorem wang_not (key : Int32) : wang (~~~key) = wang key := by
  have hupper : ~~~key >>> 16 = ~~~(key >>> 16) := by
    have hones : (-1 : Int32) >>> 16 = -1 := by decide
    rw [← Int32.xor_neg_one, Int32.shiftRight_xor, hones, Int32.xor_neg_one]
  rw [wang, wang, hupper, Int32.xor_not, Int32.not_xor, Int32.not_not]

theorem wang_representative (key : Int32) : wang (representative key) = wang key := by
  unfold representative
  split
  · exact wang_not key
  · rfl

theorem wang_wang (key : Int32) : wang (wang key) = representative key := by
  calc
    wang (wang key)
      = key ^^^ (key >>> 16 ^^^ key >>> 16) ^^^ key >>> 16 >>> 16 := by
        simp only [wang, Int32.shiftRight_xor, Int32.xor_assoc]
    _ = key ^^^ if key < 0 then -1 else 0 := by
        rw [Int32.xor_self, Int32.xor_zero, upper_upper]
    _ = representative key := by
        rw [representative]
        split
        · exact Int32.xor_neg_one
        · exact Int32.xor_zero

/-! ### The keys of a hash -/

theorem wang_eq_iff (a b : Int32) : wang a = wang b ↔ a = b ∨ a = ~~~b := by
  constructor
  · intro h
    -- Mixed once more, either hash gives the representative of its key.
    apply eq_or_eq_not
    rw [← wang_wang, ← wang_wang, h]
  · rintro (rfl | rfl)
    · rfl
    · exact wang_not b

/-- Mixing three times is mixing once, and mixing twice leaves no sign. -/
theorem wang_nonneg (key : Int32) : 0 ≤ wang key := by
  calc
    0 ≤ representative (wang key) := representative_nonneg _
    _ = wang (wang (wang key)) := (wang_wang _).symm
    _ = wang (representative key) := by rw [wang_wang key]
    _ = wang key := wang_representative key

theorem wang_eq_iff_of_nonneg (hh : 0 ≤ h) : wang key = h ↔ key = wang h ∨ key = ~~~(wang h) := by
  have hback : wang (wang h) = h := by rw [wang_wang, representative_of_nonneg hh]
  rw [← wang_eq_iff, hback]

theorem card_wang_eq (hh : 0 ≤ h) : Nat.card {key // wang key = h} = 2 := by
  calc
    Nat.card {key // wang key = h}
      = ({wang h, ~~~(wang h)} : Set Int32).ncard :=
        Nat.card_congr (Equiv.subtypeEquivRight fun _ => wang_eq_iff_of_nonneg hh)
    _ = 2 := Set.ncard_pair Int32.not_ne_self.symm

/-! ### Home slots -/

/-- Probes for the two keys begin at one slot in every table under 32-bit keys, and in every table
under their keying, to store as well as to look up. -/
structure ShareHome (a b : Int32) : Prop where
  word : ∀ {ν : Type} (t : IntTable ν), IntTable.home t.keys a = IntTable.home t.keys b
  store : ∀ {ν : Type} (t : Table Keying.wang ν),
    Probe.home t.capacity (Keying.wang.hash a) = Probe.home t.capacity (Keying.wang.hash b)
  lookup : ∀ {ν : Type} (t : Table Keying.wang ν),
    Probe.home t.capacity (Keying.wang.self.hash a) =
      Probe.home t.capacity (Keying.wang.self.hash b)

/-- Among `2 ^ 32` slots every hash has one to itself. -/
theorem home_eq_toNat {keys : Array Int32} (hsize : keys.size = 2 ^ 32) (key : Int32) :
    IntTable.home keys key = (wang key).toUInt32.toNat := by
  rw [IntTable.home, hsize]
  exact SlotCircle.wrap_of_lt ⟨32, rfl⟩ (UInt32.toNat_lt _)

theorem shareHome_iff : ShareHome a b ↔ wang a = wang b := by
  constructor
  · intro hshare
    have hsize : (.vacant (2 ^ 32) .default : IntTable Unit).keys.size = 2 ^ 32 :=
      Array.size_replicate
    have hhome := hshare.word (.vacant (2 ^ 32) .default : IntTable Unit)
    rw [home_eq_toNat hsize, home_eq_toNat hsize] at hhome
    exact congrArg UInt32.toInt32 (UInt32.toNat_inj.mp hhome)
  · intro heq
    refine ⟨fun t => ?_, fun t => ?_, fun t => ?_⟩
    · rw [IntTable.home, IntTable.home, heq]
    · exact congrArg (Probe.home t.capacity) heq
    · exact congrArg (Probe.home t.capacity) heq

/-- **A key and its complement collide, and no other keys do.** No hash is negative, and all the
others are the hash of one such pair, which shares its home in every table. -/
theorem paired_by_complement :
    (∀ a b, wang a = wang b ↔ a = b ∨ a = ~~~b) ∧
    (∀ key, 0 ≤ wang key) ∧
    (∀ h, 0 ≤ h → Nat.card {key // wang key = h} = 2) ∧
    (∀ a b, ShareHome a b ↔ wang a = wang b) ∧
    ∀ key, ShareHome key (~~~key) :=
  ⟨wang_eq_iff, wang_nonneg, fun _ => card_wang_eq, fun _ _ => shareHome_iff,
    fun key => shareHome_iff.mpr (wang_not key).symm⟩

/-- The least key and the greatest one, in a table of 16 slots. -/
theorem paired_by_complement_of_least :
    wang (-0x80000000) = 0x7fff8000 ∧ wang 0x7fffffff = 0x7fff8000 ∧
    Nat.card {key // wang key = 0x7fff8000} = 2 ∧
    IntTable.home (.empty : IntTable Int32).keys (-0x80000000) =
      IntTable.home (.empty : IntTable Int32).keys 0x7fffffff :=
  ⟨by decide, by decide, paired_by_complement.2.2.1 0x7fff8000 (by decide),
    (paired_by_complement.2.2.2.2 (-0x80000000)).word .empty⟩

end SlotArrays.Hash
