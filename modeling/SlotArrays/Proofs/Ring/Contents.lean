import SlotArrays.Proofs.SlotCircle
import SlotArrays.Proofs.SlotCount
import SlotArrays.Ring.Basic

/-! What a ring holds.

A ring holds a list (`Holds`) when the items of the list stand one after the other in
the slots from `head` on, around the end of the array, and all other slots are vacant.
Where `head` is does not matter. The places are counted from `head`, so that place `i`
is in slot `wrap size (head + i)`; an array of slots has as many places, each of them in
a slot of its own.

A ring may get an item behind the last one (`appended`) and lose the first one
(`shifted`), and what is done to the slots is done to the list. Items that are `Lined` up
from the first slot on, in an array with more slots than that, are a ring again. -/
namespace SlotArrays.Ring
open SlotCircle
variable {α : Type} {r : Ring α} {items : List α} {item : α}

/-! ### Rings and lists -/

/-- The ring holds the items in order, and nothing else. -/
structure Holds (r : Ring α) (items : List α) : Prop where
  power : ∃ k, k < 64 ∧ r.slots.size = 2 ^ k
  head_lt : r.head < r.slots.size
  /-- The place behind the last item, which in a full ring is the place of the first one. -/
  tail_eq : r.tail = wrap r.slots.size (r.head + items.length)
  count_eq : r.count = items.length
  length_le : items.length ≤ r.slots.size
  /-- Beyond the items the places are vacant. -/
  slot : ∀ i, i < r.slots.size → r.slots[wrap r.slots.size (r.head + i)]? = some items[i]?

namespace Holds

theorem isPowerOfTwo (h : r.Holds items) : r.slots.size.isPowerOfTwo := by
  obtain ⟨k, _, hsize⟩ := h.power
  exact ⟨k, hsize⟩

theorem tail_lt (h : r.Holds items) : r.tail < r.slots.size := by
  rw [h.tail_eq]
  exact wrap_lt h.isPowerOfTwo _

/-- The first item is at the head. -/
theorem head_slot (h : r.Holds items) : r.slots[r.head]? = some items.head? := by
  have hslot := h.slot 0 (Nat.zero_lt_of_lt h.head_lt)
  rwa [Nat.add_zero, wrap_of_lt h.isPowerOfTwo h.head_lt, ← List.head?_eq_getElem?] at hslot

/-- What a write into the slot of one place leaves in the others. -/
theorem slot_write (h : r.Holds items) (x : Option α) {i j : Nat} (hi : i < r.slots.size)
    (hj : j < r.slots.size) :
    (r.slots.setIfInBounds (wrap r.slots.size (r.head + j)) x)[wrap r.slots.size (r.head + i)]? =
      some (if i = j then x else items[i]?) := by
  have hs := h.isPowerOfTwo
  by_cases hij : i = j
  · rw [hij, Array.getElem?_setIfInBounds_self_of_lt (wrap_lt hs _), if_pos rfl]
  · have hslot : wrap r.slots.size (r.head + j) ≠ wrap r.slots.size (r.head + i) :=
      fun he => hij (wrap_inj hs h.head_lt hi hj he.symm)
    rw [Array.getElem?_setIfInBounds_ne hslot, h.slot i hi, if_neg hij]

end Holds

/-! ### Items from the first slot on -/

/-- The items stand in the first slots, and the other slots are vacant. -/
def Lined (slots : Array (Option α)) (items : List α) : Prop :=
  ∀ i, i < slots.size → slots[i]? = some items[i]?

namespace Lined
variable {slots : Array (Option α)}

theorem replicate (size : Nat) : Lined (Array.replicate size none) ([] : List α) := by
  intro i hi
  rw [Array.size_replicate] at hi
  rw [Array.getElem?_replicate, if_pos hi]
  rfl

/-- One item more. -/
theorem write {i : Nat} (h : Lined slots (items.take i)) :
    Lined (slots.setIfInBounds i items[i]?) (items.take (i + 1)) := by
  intro j hj
  rw [Array.size_setIfInBounds] at hj
  rw [Array.getElem?_setIfInBounds, List.getElem?_take]
  split
  · rw [if_pos (by omega), if_pos (by omega), ‹i = j›]
  · rw [h j hj, List.getElem?_take]
    congr 1
    exact if_congr (by omega) rfl rfl

theorem holds {k : Nat} (h : Lined slots items) (hk : k < 64) (hsize : slots.size = 2 ^ k)
    (hroom : items.length < slots.size) :
    (Ring.mk slots 0 items.length items.length).Holds items := by
  have hs : slots.size.isPowerOfTwo := ⟨k, hsize⟩
  refine ⟨⟨k, hk, hsize⟩, Nat.zero_lt_of_lt hroom, ?_, rfl, hroom.le, fun i hi => ?_⟩
  · show items.length = wrap slots.size (0 + items.length)
    rw [Nat.zero_add, wrap_of_lt hs hroom]
  · show slots[wrap slots.size (0 + i)]? = some items[i]?
    rw [Nat.zero_add, wrap_of_lt hs hi]
    exact h i hi

end Lined

theorem Holds.vacant {k : Nat} (hk : k < 64) : (Ring.vacant (2 ^ k) : Ring α).Holds [] := by
  refine (Lined.replicate (2 ^ k)).holds hk Array.size_replicate ?_
  rw [Array.size_replicate]
  exact Nat.two_pow_pos k

/-! ### One item more, one item less -/

/-- The ring with an item more. -/
def appended (r : Ring α) (item : α) : Ring α where
  slots := r.slots.setIfInBounds r.tail (some item)
  head := r.head
  tail := wrap r.slots.size (r.tail + 1)
  count := r.count + 1

/-- The ring without the first item. -/
def shifted (r : Ring α) : Ring α where
  slots := r.slots.setIfInBounds r.head none
  head := wrap r.slots.size (r.head + 1)
  tail := r.tail
  count := r.count - 1

namespace Holds

theorem appended (h : r.Holds items) (hroom : items.length < r.slots.size) (item : α) :
    (r.appended item).Holds (items ++ [item]) := by
  have hsize : (r.appended item).slots.size = r.slots.size := Array.size_setIfInBounds
  refine ⟨hsize ▸ h.power, hsize ▸ h.head_lt, ?_, ?_, ?_, fun i hi => ?_⟩
  · show wrap r.slots.size (r.tail + 1) = _
    rw [hsize, h.tail_eq, wrap_wrap_succ h.isPowerOfTwo, List.length_append]
    rfl
  · show r.count + 1 = _
    rw [h.count_eq, List.length_append]
    rfl
  · rw [hsize, List.length_append]
    exact hroom
  · rw [hsize] at hi ⊢
    show (r.slots.setIfInBounds r.tail (some item))[wrap r.slots.size (r.head + i)]? = _
    rw [h.tail_eq, h.slot_write _ hi hroom]
    split
    · rw [‹i = items.length›, List.getElem?_concat_length]
    · rcases Nat.lt_or_gt_of_ne ‹i ≠ items.length› with hlt | hgt
      · rw [List.getElem?_append_left hlt]
      · rw [List.getElem?_eq_none hgt.le, List.getElem?_eq_none]
        rw [List.length_append]
        exact hgt

theorem shifted (h : r.Holds (item :: items)) : r.shifted.Holds items := by
  have hs := h.isPowerOfTwo
  have hsize : r.shifted.slots.size = r.slots.size := Array.size_setIfInBounds
  have hzero : wrap r.slots.size (r.head + 0) = r.head := wrap_of_lt hs h.head_lt
  have hlength : items.length + 1 ≤ r.slots.size := h.length_le
  refine ⟨hsize ▸ h.power, hsize ▸ wrap_lt hs _, ?_, ?_, ?_, fun i hi => ?_⟩
  · show r.tail = wrap _ (wrap r.slots.size (r.head + 1) + items.length)
    rw [hsize, wrap_succ_add hs, h.tail_eq]
    rfl
  · show r.count - 1 = _
    rw [h.count_eq]
    rfl
  · rw [hsize]
    omega
  · rw [hsize] at hi ⊢
    show (r.slots.setIfInBounds r.head none)[wrap r.slots.size
      (wrap r.slots.size (r.head + 1) + i)]? = _
    rw [wrap_succ_add hs]
    by_cases hnext : i + 1 < r.slots.size
    · have hslot := h.slot_write none hnext (Nat.zero_lt_of_lt hi)
      rwa [hzero, if_neg (Nat.succ_ne_zero i)] at hslot
    · -- Past the last place comes the first one, which has just been vacated.
      have hfirst : wrap r.slots.size (r.head + (i + 1)) = r.head := by
        rw [show i + 1 = r.slots.size by omega, wrap_eq_mod hs, Nat.add_mod_right,
          Nat.mod_eq_of_lt h.head_lt]
      rw [hfirst, Array.getElem?_setIfInBounds_self_of_lt h.head_lt, List.getElem?_eq_none]
      omega

end Holds
end SlotArrays.Ring
