import Mathlib.Data.List.Perm.Basic
import SlotArrays.Table.Operation
import SlotArrays.Proofs.Layout
import SlotArrays.Proofs.Threshold

/-! Writing to the slots of a table.

Whatever a table's calls do comes down to two writes: an entry put into a slot
(`put`) and a slot vacated (`cleared`). The stored entries are those of one slot and
the `others`, so what a write does to the entries, up to their order, is read off the
slot that it goes to. `Sound` is what both writes keep of a table, whether or not
every key can be found. -/
namespace SlotArrays.Table
open Keying
variable {κ ν : Type} {K : Keying κ}

/-! ### The slots as a list -/

/-- The keys and values of all slots. -/
def slots (t : Table K ν) : List (κ × ν) := t.keys.toList.zip t.values.toList

/-- The slot that shows this is not vacant. -/
def stored (K : Keying κ) (entry : κ × ν) : Bool := !K.vacates entry.1

/-- The entries in all slots but one. -/
def others (t : Table K ν) (i : Nat) : List (κ × ν) :=
  (t.slots.take i ++ t.slots.drop (i + 1)).filter (stored K)

/-- An entry put into a slot. It counts if the slot was vacant. -/
def put (t : Table K ν) (i : Nat) (key : κ) (value : ν) : Table K ν :=
  {t with
    keys := t.keys.setIfInBounds i key
    values := t.values.setIfInBounds i value
    count := if K.Taken t.keys i then t.count else t.count + 1}

variable {t : Table K ν} {i j : Nat} {key : κ} {value : ν}

theorem entries_eq (t : Table K ν) : t.entries = t.slots.filter (stored K) := rfl

theorem vacates_of_mem_entries {entry : κ × ν} (h : entry ∈ t.entries) :
    K.vacates entry.1 = false := by
  rw [entries_eq, List.mem_filter] at h
  simpa [stored] using h.2

theorem length_slots (hsizes : t.values.size = t.keys.size) : t.slots.length = t.keys.size := by
  simp [slots, hsizes]

theorem zip_set (keys : List κ) (values : List ν) (i : Nat) (key : κ) (value : ν) :
    (keys.set i key).zip (values.set i value) = (keys.zip values).set i (key, value) := by
  induction keys generalizing values i with
  | nil => rfl
  | cons k keys ih =>
    cases values with
    | nil => cases i <;> rfl
    | cons v values =>
      cases i with
      | zero => rfl
      | succ i => simp only [List.set_cons_succ, List.zip_cons_cons, ih]

theorem slots_put (t : Table K ν) (i : Nat) (key : κ) (value : ν) :
    (t.put i key value).slots = t.slots.set i (key, value) := by
  simp only [slots, put, Array.toList_setIfInBounds, zip_set]

/-- A filter keeps of a list what it keeps of one element and of the rest. -/
theorem filter_split (l : List (κ × ν)) (p : κ × ν → Bool) (h : i < l.length) :
    (l.filter p).Perm ([l[i]].filter p ++ (l.take i ++ l.drop (i + 1)).filter p) := by
  have hsplit : l = l.take i ++ l[i] :: l.drop (i + 1) := by
    rw [List.getElem_cons_drop, List.take_append_drop]
  rw [← List.filter_append]
  apply List.Perm.filter
  conv => lhs; rw [hsplit]
  exact List.perm_middle

theorem others_put (t : Table K ν) (i : Nat) (key : κ) (value : ν) :
    (t.put i key value).others i = t.others i := by
  rw [others, slots_put, List.take_set_of_le (Nat.le_refl i), List.drop_set_of_lt (Nat.lt_succ_self i),
    others]

theorem entries_put (hsizes : t.values.size = t.keys.size) (hi : i < t.keys.size)
    (hkey : K.vacates key = false) (value : ν) :
    (t.put i key value).entries.Perm ((key, value) :: t.others i) := by
  have hlen : i < (t.put i key value).slots.length := by
    rwa [slots_put, List.length_set, length_slots hsizes]
  have hsplit := filter_split (t.put i key value).slots (stored K) hlen
  have hslot : (t.put i key value).slots[i] = (key, value) := by simp [slots_put]
  rw [hslot, List.filter_singleton, stored, hkey] at hsplit
  rw [← others_put t i key value]
  exact hsplit

/-! ### Single slots -/

section Slots
variable [Inhabited ν]

/-- What stands in slot `i`. -/
def slot (t : Table K ν) (i : Nat) : κ × ν := (K.held t.keys i, t.values.getD i default)

/-- A slot vacated. -/
def cleared (t : Table K ν) (i : Nat) : Table K ν :=
  {t with
    keys := t.keys.setIfInBounds i K.reserved
    values := t.values.setIfInBounds i default
    count := t.count - 1}

theorem capacity_cleared (t : Table K ν) (i : Nat) : (t.cleared i).capacity = t.capacity :=
  Array.size_setIfInBounds

theorem getElem_slots (h : i < t.slots.length) : t.slots[i] = t.slot i := by
  have hlt : i < t.keys.size ∧ i < t.values.size := by simpa [slots] using h
  simp [slots, slot, held_eq hlt.1, hlt.2]

theorem stored_slot : stored K (t.slot i) = true ↔ K.Taken t.keys i := by
  simp [stored, slot, Taken]

theorem others_cleared (t : Table K ν) (i : Nat) : (t.cleared i).others i = t.others i :=
  others_put t i K.reserved default

theorem entries_taken (hK : K.Lawful) (hsizes : t.values.size = t.keys.size)
    (hi : K.Taken t.keys i) : t.entries.Perm (t.slot i :: t.others i) := by
  have hlen : i < t.slots.length := by rw [length_slots hsizes]; exact hi.lt hK
  have hsplit := filter_split t.slots (stored K) hlen
  rw [getElem_slots hlen, List.filter_singleton, stored_slot.mpr hi] at hsplit
  exact hsplit

theorem entries_vacant (hsizes : t.values.size = t.keys.size) (hlt : i < t.keys.size)
    (hi : ¬ K.Taken t.keys i) : t.entries.Perm (t.others i) := by
  have hlen : i < t.slots.length := by rwa [length_slots hsizes]
  have hsplit := filter_split t.slots (stored K) hlen
  rw [getElem_slots hlen, List.filter_singleton, Bool.eq_false_iff.mpr fun h => hi (stored_slot.mp h)]
    at hsplit
  exact hsplit

theorem not_taken_cleared (hK : K.Lawful) (hlt : i < t.keys.size) :
    ¬ K.Taken (t.cleared i).keys i := by
  rw [not_taken, cleared, held_set_self hlt]
  exact hK.vacates_reserved

theorem entries_cleared (hK : K.Lawful) (hsizes : t.values.size = t.keys.size)
    (hlt : i < t.keys.size) : (t.cleared i).entries.Perm (t.others i) := by
  rw [← others_cleared]
  exact entries_vacant (by simpa [cleared] using hsizes) (by simpa [cleared] using hlt)
    (not_taken_cleared hK hlt)

theorem mem_entries (hK : K.Lawful) (hsizes : t.values.size = t.keys.size) {entry : κ × ν} :
    entry ∈ t.entries ↔ ∃ i, K.Taken t.keys i ∧ t.slot i = entry := by
  constructor
  · intro h
    rw [entries_eq, List.mem_filter] at h
    obtain ⟨hmem, hstored⟩ := h
    obtain ⟨i, hi, rfl⟩ := List.mem_iff_getElem.mp hmem
    rw [getElem_slots hi] at hstored ⊢
    exact ⟨i, stored_slot.mp hstored, rfl⟩
  · rintro ⟨i, hi, rfl⟩
    exact (entries_taken hK hsizes hi).mem_iff.mpr List.mem_cons_self

/-- If equal keys stand in one slot only, the entries have different keys. -/
theorem entries_pairwise
    (hinj : ∀ i j, K.Taken t.keys i → K.Taken t.keys j →
      K.same (K.held t.keys i) (K.held t.keys j) = true → i = j) :
    t.entries.Pairwise fun a b => K.same a.1 b.1 = false := by
  rw [entries_eq, List.pairwise_filter, List.pairwise_iff_getElem]
  intro i j hi hj hij hsi hsj
  rw [getElem_slots hi, stored_slot] at hsi
  rw [getElem_slots hj, stored_slot] at hsj
  rw [getElem_slots hi, getElem_slots hj]
  refine Bool.eq_false_iff.mpr fun hsame => ?_
  exact Nat.ne_of_lt hij (hinj i j hsi hsj hsame)

theorem value_set {values : Array ν} (hlt : i < values.size) (value : ν) (j : Nat) :
    (values.setIfInBounds i value).getD j default =
      if j = i then value else values.getD j default := by
  simp only [Array.getD_eq_getD_getElem?, Array.getElem?_setIfInBounds, hlt, if_true, eq_comm]
  split <;> rfl

/-! ### What writes keep -/

/-- What holds of a table between any two writes. -/
structure Sound (t : Table K ν) : Prop where
  sizes : t.values.size = t.keys.size
  power : ∃ k, k < 64 ∧ t.keys.size = 2 ^ k
  threshold_eq : t.threshold = t.loadFactor.threshold t.keys.size
  count_eq : t.count = t.entries.length
  count_le : t.count ≤ t.threshold
  vacant_value : ∀ i, ¬ K.Taken t.keys i → t.values.getD i default = default

namespace Sound

theorem isPowerOfTwo (h : t.Sound) : t.keys.size.isPowerOfTwo := by
  obtain ⟨k, _, hk⟩ := h.power
  exact ⟨k, hk⟩

theorem put (hK : K.Lawful) (h : t.Sound) (hlt : i < t.keys.size) (hkey : K.vacates key = false)
    (hroom : ¬ K.Taken t.keys i → t.count < t.threshold) (value : ν) :
    (t.put i key value).Sound where
  sizes := by simpa [Table.put] using h.sizes
  power := by simpa [Table.put] using h.power
  threshold_eq := by simpa [Table.put] using h.threshold_eq
  count_eq := by
    have hput := (entries_put h.sizes hlt hkey value).length_eq
    have hcount := h.count_eq
    rw [hput, List.length_cons]
    simp only [Table.put]
    split
    · have := (entries_taken hK h.sizes ‹_›).length_eq
      rw [List.length_cons] at this
      omega
    · have := (entries_vacant h.sizes hlt ‹_›).length_eq
      omega
  count_le := by
    have := h.count_le
    simp only [Table.put]
    split
    · assumption
    · exact hroom ‹_›
  vacant_value j hj := by
    simp only [Table.put] at hj ⊢
    rw [taken_set hlt hkey] at hj
    rw [value_set (by rwa [h.sizes]), if_neg fun he => hj (.inl he)]
    exact h.vacant_value j fun ht => hj (.inr ht)

theorem cleared (hK : K.Lawful) (h : t.Sound) (hi : K.Taken t.keys i) : (t.cleared i).Sound where
  sizes := by simpa [Table.cleared] using h.sizes
  power := by simpa [Table.cleared] using h.power
  threshold_eq := by simpa [Table.cleared] using h.threshold_eq
  count_eq := by
    have hcleared := (entries_cleared hK h.sizes (hi.lt hK)).length_eq
    have htaken := (entries_taken hK h.sizes hi).length_eq
    have hcount := h.count_eq
    rw [List.length_cons] at htaken
    simp only [Table.cleared] at hcleared ⊢
    omega
  count_le := (Nat.sub_le ..).trans h.count_le
  vacant_value j hj := by
    have hlt := hi.lt hK
    simp only [Table.cleared] at hj ⊢
    rw [value_set (by rwa [h.sizes])]
    split
    · rfl
    · rw [Taken, held_set_of_ne hlt ‹_›] at hj
      exact h.vacant_value j hj

/-- A taken slot counts. -/
theorem count_pos (hK : K.Lawful) (h : t.Sound) (hi : K.Taken t.keys i) : 0 < t.count := by
  have := (entries_taken hK h.sizes hi).length_eq
  rw [h.count_eq, this]
  exact Nat.succ_pos _

theorem threshold_le (h : t.Sound) : t.threshold ≤ t.keys.size := by
  obtain ⟨k, hk, hsize⟩ := h.power
  rw [h.threshold_eq, hsize]
  exact t.loadFactor.threshold_le hk

/-- Below the threshold there is a vacant slot. -/
theorem exists_vacant (h : t.Sound) (hroom : t.count < t.keys.size) :
    ∃ i, i < t.keys.size ∧ ¬ K.Taken t.keys i := by
  by_contra hfull
  push Not at hfull
  have hall : t.slots.filter (stored K) = t.slots := by
    rw [List.filter_eq_self]
    intro entry hmem
    obtain ⟨i, hi, rfl⟩ := List.mem_iff_getElem.mp hmem
    rw [getElem_slots hi, stored_slot]
    exact hfull i (by rwa [length_slots h.sizes] at hi)
  have hcount := h.count_eq
  rw [entries_eq, hall, length_slots h.sizes] at hcount
  omega

/-- A new table. -/
theorem vacant (hK : K.Lawful) {k : Nat} (hk : k < 64) (f : LoadFactor) :
    (Table.vacant (K := K) (ν := ν) (2 ^ k) f).Sound where
  sizes := by simp [Table.vacant]
  power := ⟨k, hk, by simp [Table.vacant]⟩
  threshold_eq := by simp [Table.vacant]
  count_eq := by
    have hnone : ∀ entry ∈ (Table.vacant (K := K) (ν := ν) (2 ^ k) f).slots, ¬ stored K entry := by
      simp [slots, Table.vacant, stored, hK.vacates_reserved]
    rw [entries_eq, List.filter_eq_nil_iff.mpr hnone]
    rfl
  count_le := Nat.zero_le _
  vacant_value i _ := by
    by_cases hi : i < 2 ^ k <;> simp [Table.vacant, hi]

end Sound
end Slots
end SlotArrays.Table
