import Mathlib.Algebra.Ring.Nat
import Mathlib.Data.List.Basic
import SlotArrays.Keying.Standard

/-! Which texts collide.

The hash of a text sees the lower byte of each of its units and nothing else
(`HashesLowBytes`), so texts that agree in these bytes collide. A step of the hash
can be undone by whoever knows the byte (`unmix`), and whoever knows the hash before
can read the byte off. So a difference in one byte shows in the hash right behind it
and is never lost again, whatever follows. -/
namespace SlotArrays.Hash.Fnv

/-! ### Lower bytes -/

/-- The lower bytes of the units of a character, told from its number. The lower byte of either
surrogate does not depend on the range that surrogates come from. -/
def charBytes (c : Char) : List Nat :=
  if c.toNat < 0x10000 then [c.toNat % 256]
  else [((c.toNat - 0x10000) >>> 10) % 256, c.toNat % 256]

def lowBytes (text : String) : List Nat := text.toList.flatMap charBytes

/-- FNV-1a on numbers. -/
def fnv1a (bytes : List Nat) : Nat :=
  bytes.foldl (fun hash byte => (hash ^^^ byte) * 16777619 % 2 ^ 32) 2166136261

theorem charBytes_eq (c : Char) : charBytes c = (charUnits c).map fun unit => unit.toNat % 256 := by
  have hchar : c.val.toNat = c.toNat := rfl
  unfold charBytes charUnits
  by_cases hlow : c.val < 0x10000
  · have hnat : c.toNat < 0x10000 := UInt32.lt_iff_toNat_lt.mp hlow
    rw [if_pos hlow, if_pos hnat]
    simp only [List.map_cons, List.map_nil, UInt32.toNat_toUInt16, hchar, List.cons.injEq, and_true]
    omega
  · have hnat : ¬ c.toNat < 0x10000 := fun h => hlow (UInt32.lt_iff_toNat_lt.mpr h)
    have hdistance : (c.val - 0x10000).toNat = c.toNat - 0x10000 :=
      UInt32.toNat_sub_of_le _ _ (UInt32.le_iff_toNat_le.mpr (Nat.le_of_not_lt hnat))
    have hupper : ((c.val - 0x10000) >>> 10).toNat = (c.toNat - 0x10000) >>> 10 := by
      rw [UInt32.toNat_shiftRight, hdistance]
      rfl
    have hlower : ((c.val - 0x10000) &&& 0x3FF).toNat = (c.toNat - 0x10000) % 2 ^ 10 := by
      rw [UInt32.toNat_and, hdistance]
      exact Nat.and_two_pow_sub_one_eq_mod _ 10
    rw [if_neg hlow, if_neg hnat]
    simp only [List.map_cons, List.map_nil, UInt16.toNat_add, UInt32.toNat_toUInt16, hupper, hlower,
      UInt16.reduceToNat, List.cons.injEq, and_true]
    omega

theorem lowBytes_eq (text : String) :
    lowBytes text = (textUnits text).map fun unit => unit.toNat % 256 := by
  rw [lowBytes, textUnits, List.map_flatMap]
  congr 1
  funext c
  exact charBytes_eq c

theorem toNat_mix (hash : UInt32) (byte : UInt8) :
    (mix hash byte).toNat = (hash.toNat ^^^ byte.toNat) * 16777619 % 2 ^ 32 := by
  rw [mix, UInt32.toNat_mul, UInt32.toNat_xor, UInt8.toNat_toUInt32]
  rfl

theorem toNat_ofBytes (bytes : List UInt8) :
    (ofBytes bytes).toNat = fnv1a (bytes.map UInt8.toNat) := by
  have hfrom (start : UInt32) : (bytes.foldl mix start).toNat =
      (bytes.map UInt8.toNat).foldl (fun hash byte => (hash ^^^ byte) * 16777619 % 2 ^ 32)
        start.toNat := by
    induction bytes generalizing start with
    | nil => rfl
    | cons byte rest ih => rw [List.foldl_cons, ih, toNat_mix, List.map_cons, List.foldl_cons]
  exact hfrom basis

/-- The bytes that the hash takes in. -/
def bytes (text : String) : List UInt8 := (textUnits text).map (·.toUInt8)

theorem map_bytes (text : String) : (bytes text).map UInt8.toNat = lowBytes text := by
  rw [lowBytes_eq, bytes, List.map_map]
  rfl

theorem toInt_hash (text : String) :
    (hash text).toInt = (fnv1a (lowBytes text) : Int).bmod (2 ^ 32) := by
  rw [← map_bytes, ← toNat_ofBytes]
  exact BitVec.toInt_eq_toNat_bmod _

/-! ### Steps undone -/

def primeInverse : UInt32 := 0x359c449b

theorem prime_mul_inverse : prime * primeInverse = 1 := by decide

/-- The hash before a byte was mixed in. -/
def unmix (hash : UInt32) (byte : UInt8) : UInt32 := hash * primeInverse ^^^ byte.toUInt32

theorem unmix_mix (hash : UInt32) (byte : UInt8) : unmix (mix hash byte) byte = hash := by
  simp only [unmix, mix, UInt32.mul_assoc, prime_mul_inverse, UInt32.mul_one, UInt32.xor_assoc,
    UInt32.xor_self, UInt32.xor_zero]

theorem mix_left_injective (byte : UInt8) : Function.Injective (mix · byte) := by
  intro hash hash' h
  have hunmix := congrArg (unmix · byte) h
  simpa only [unmix_mix] using hunmix

theorem mix_right_injective (hash : UInt32) : Function.Injective (mix hash) := by
  intro byte byte' h
  have hsame : hash ^^^ byte.toUInt32 = hash ^^^ byte'.toUInt32 := by
    have hword := congrArg (· * primeInverse) h
    simpa only [mix, UInt32.mul_assoc, prime_mul_inverse, UInt32.mul_one] using hword
  exact UInt8.toUInt32_inj.mp ((UInt32.xor_right_inj hash).mp hsame)

theorem foldl_mix_injective (bytes : List UInt8) : Function.Injective (bytes.foldl mix) := by
  induction bytes with
  | nil => exact Function.injective_id
  | cons byte rest ih => exact ih.comp (mix_left_injective byte)

/-- One byte makes the difference, whatever stands before and behind. -/
theorem ofBytes_ne {x y : UInt8} (hne : x ≠ y) (before behind : List UInt8) :
    ofBytes (before ++ x :: behind) ≠ ofBytes (before ++ y :: behind) := by
  simp only [ofBytes, List.foldl_append, List.foldl_cons]
  intro h
  exact hne (mix_right_injective _ (foldl_mix_injective behind h))

/-! ### Collisions -/

/-- Lists that differ at one place only, told by what stands before and behind it. -/
theorem exists_split {α : Type} {list list' : List α} (hlength : list.length = list'.length)
    (h : ∃! i : Nat, list[i]? ≠ list'[i]?) :
    ∃ before x y behind, x ≠ y ∧ list = before ++ x :: behind ∧ list' = before ++ y :: behind := by
  obtain ⟨i, hdiffer, hunique⟩ := h
  have hsame (j : Nat) (hj : j ≠ i) : list[j]? = list'[j]? := by
    by_contra hother
    exact hj (hunique j hother)
  have hi : i < list.length := by
    by_contra hout
    apply hdiffer
    rw [List.getElem?_eq_none (by omega), List.getElem?_eq_none (by omega)]
  have hi' : i < list'.length := hlength ▸ hi
  have hbefore : list.take i = list'.take i := by
    apply List.ext_getElem?
    intro j
    simp only [List.getElem?_take]
    split
    · exact hsame j (by omega)
    · rfl
  have hbehind : list.drop (i + 1) = list'.drop (i + 1) := by
    apply List.ext_getElem?
    intro j
    simp only [List.getElem?_drop]
    exact hsame _ (by omega)
  refine ⟨list.take i, list[i], list'[i], list.drop (i + 1), fun he => hdiffer ?_, ?_, ?_⟩
  · rw [List.getElem?_eq_getElem hi, List.getElem?_eq_getElem hi', he]
  · rw [← List.drop_eq_getElem_cons hi, List.take_append_drop]
  · rw [hbefore, hbehind, ← List.drop_eq_getElem_cons hi', List.take_append_drop]

theorem hash_eq {a b : String} (h : lowBytes a = lowBytes b) : hash a = hash b := by
  rw [← Int32.toInt_inj, toInt_hash, toInt_hash, h]

theorem hash_ne {a b : String} (hunits : (textUnits a).length = (textUnits b).length)
    (h : ∃! i : Nat, (lowBytes a)[i]? ≠ (lowBytes b)[i]?) : hash a ≠ hash b := by
  have hplace (i : Nat) : (lowBytes a)[i]? ≠ (lowBytes b)[i]? ↔ (bytes a)[i]? ≠ (bytes b)[i]? := by
    have hinjective : Function.Injective UInt8.toNat := fun _ _ => UInt8.toNat_inj.mp
    rw [← map_bytes, ← map_bytes, List.getElem?_map, List.getElem?_map]
    exact (Option.map_injective hinjective).ne_iff
  simp only [hplace] at h
  have hlength : (bytes a).length = (bytes b).length := by
    rw [bytes, bytes, List.length_map, List.length_map, hunits]
  obtain ⟨before, x, y, behind, hne, ha, hb⟩ := exists_split hlength h
  intro he
  have hword : ofBytes (bytes a) = ofBytes (bytes b) := congrArg Int32.toUInt32 he
  rw [ha, hb] at hword
  exact ofBytes_ne hne before behind hword

/-- The hash of a text is the one of its lower bytes, however it is asked for. -/
structure HashesLowBytes (text : String) : Prop where
  bytes : lowBytes text = (textUnits text).map fun unit => unit.toNat % 256
  hash : (hash text).toInt = (fnv1a (lowBytes text) : Int).bmod (2 ^ 32)
  optional : hash? (some text) = .ok (Fnv.hash text)
  key : Keying.fnv.hash text = Fnv.hash text
  lookup : Keying.fnv.self.hash text = Fnv.hash text

/-- **Texts with the same lower bytes collide, and texts of one length with one lower byte that
differs do not.** -/
theorem collision_law :
    (∀ text, HashesLowBytes text) ∧
    ∀ a b, (textUnits a).length = (textUnits b).length →
      (lowBytes a = lowBytes b → hash a = hash b) ∧
      ((∃! i : Nat, (lowBytes a)[i]? ≠ (lowBytes b)[i]?) → hash a ≠ hash b) :=
  ⟨fun text => ⟨lowBytes_eq text, toInt_hash text, rfl, rfl, rfl⟩,
    fun _ _ hunits => ⟨hash_eq, hash_ne hunits⟩⟩

/-- A pair of surrogates beside two characters of one unit each. -/
theorem collision_law_of_surrogates :
    hash "😀" = hash "=\u0100" ∧ hash "😀" ≠ hash "=\u0101" := by
  have hpair : lowBytes "😀" = [0x3d, 0] := by decide +kernel
  have hsame : lowBytes "=\u0100" = [0x3d, 0] := by decide +kernel
  have hother : lowBytes "=\u0101" = [0x3d, 1] := by decide +kernel
  have hlength : (textUnits "😀").length = (textUnits "=\u0100").length := by decide +kernel
  have hlength' : (textUnits "😀").length = (textUnits "=\u0101").length := by decide +kernel
  refine ⟨(collision_law.2 _ _ hlength).1 (hpair.trans hsame.symm),
    (collision_law.2 _ _ hlength').2 ⟨1, ?_, fun i hi => ?_⟩⟩
  · rw [hpair, hother]
    decide
  · rw [hpair, hother] at hi
    match i with
    | 0 => exact absurd rfl hi
    | 1 => rfl
    | _ + 2 => exact absurd rfl hi

end SlotArrays.Hash.Fnv
