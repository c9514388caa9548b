import SlotArrays.Proofs.Call
import SlotArrays.Proofs.Table.Slots

/-! What the calls on slots come back with.

A call that meets its preconditions is an equation: the answer and the table it
leaves. The calls that are made of such calls are opened with these equations, one
after the other. -/
namespace SlotArrays.Table
open Keying
variable {κ ν : Type} {K : Keying κ} {t : Table K ν} {events : List TableEvent} {i : Nat}
  {key : κ} {value : ν}

/-! ### Single slots -/

theorem keyAt_ok (h : i < t.keys.size) :
    keyAt i ⟨t, events⟩ = .ok (K.held t.keys i) ⟨t, events⟩ :=
  Call.lift_ok (Probe.slotAt_eq h)

theorem writeKey_ok (h : i < t.keys.size) : writeKey i key ⟨t, events⟩ =
    .ok () ⟨{t with keys := t.keys.setIfInBounds i key}, events⟩ := by
  apply Call.bind_eq (Call.view_ok ..)
  rw [if_pos h]
  rfl

theorem writeValue_ok (h : i < t.values.size) : writeValue i value ⟨t, events⟩ =
    .ok () ⟨{t with values := t.values.setIfInBounds i value}, events⟩ := by
  apply Call.bind_eq (Call.view_ok ..)
  rw [if_pos h]
  rfl

theorem countDown_ok (h : 0 < t.count) :
    countDown ⟨t, events⟩ = .ok () ⟨{t with count := t.count - 1}, events⟩ := by
  apply Call.bind_eq (Call.view_ok ..)
  rw [if_neg (Nat.ne_of_gt h)]
  rfl

section Slots
variable [Inhabited ν]

theorem valueAt_ok (h : i < t.values.size) :
    valueAt i ⟨t, events⟩ = .ok (t.values.getD i default) ⟨t, events⟩ :=
  Call.lift_ok (by simp [slotAt, h])

/-- Taking an entry out answers it and vacates its slot. -/
theorem takeSlot_ok (hK : K.Lawful) (h : t.Sound) (hi : K.Taken t.keys i) :
    takeSlot i ⟨t, events⟩ = .ok (t.slot i) ⟨t.cleared i, events⟩ := by
  have hkeys := hi.lt hK
  have hvalues : i < t.values.size := by rwa [h.sizes]
  have hcount := h.count_pos hK hi
  refine Call.bind_eq (keyAt_ok hkeys) ?_
  refine Call.bind_eq (writeKey_ok hkeys) ?_
  refine Call.bind_eq (valueAt_ok hvalues) ?_
  refine Call.bind_eq (writeValue_ok hvalues) ?_
  exact Call.bind_eq (countDown_ok hcount) rfl

end Slots

/-! ### Storing -/

theorem seat_ok (hs : t.keys.size.isPowerOfTwo) (hi : K.Seats t.keys key i) :
    seat key ⟨t, events⟩ = .ok i ⟨t, events⟩ :=
  Call.lift_ok (Probe.seat_eq hs hi)

theorem store_ok (hs : t.keys.size.isPowerOfTwo) (hsizes : t.values.size = t.keys.size)
    (hi : K.Seats t.keys key i) :
    store key value ⟨t, events⟩ = .ok () ⟨t.put i key value, events⟩ := by
  have hvalues : i < t.values.size := by rw [hsizes]; exact hi.lt
  refine Call.bind_eq (seat_ok hs hi) ?_
  refine Call.bind_eq (keyAt_ok hi.lt) ?_
  refine Call.bind_eq (writeKey_ok hi.lt) ?_
  refine Call.bind_eq (writeValue_ok hvalues) ?_
  by_cases htaken : K.Taken t.keys i
  · rw [put, if_pos htaken, if_neg fun hv => not_taken.mpr hv htaken]
    rfl
  · rw [put, if_neg htaken, if_pos (not_taken.mp htaken)]
    rfl

theorem insertWith_reserved (grow : Action K ν Unit) (hkey : K.vacates key = true) :
    insertWith grow key value ⟨t, events⟩ = .error .reservedKey ⟨t, events⟩ := by
  rw [insertWith, if_pos hkey]
  rfl

/-- Below the threshold storing does not grow the table. -/
theorem insertWith_room (grow : Action K ν Unit) (hkey : K.vacates key = false)
    (hroom : t.count < t.threshold) :
    insertWith grow key value ⟨t, events⟩ = store key value ⟨t, events⟩ := by
  rw [insertWith, if_neg (by simp [hkey])]
  apply Call.bind_eq (Call.view_ok ..)
  rw [decide_eq_false (Nat.not_le.mpr hroom)]
  rfl

/-- At the threshold storing grows the table first. -/
theorem insertWith_full (grow : Action K ν Unit) (hkey : K.vacates key = false)
    (hfull : t.threshold ≤ t.count) :
    insertWith grow key value ⟨t, events⟩ = (grow >>= fun _ => store key value) ⟨t, events⟩ := by
  rw [insertWith, if_neg (by simp [hkey])]
  apply Call.bind_eq (Call.view_ok ..)
  rw [decide_eq_true hfull]
  rfl

/-- Of the growth it only matters what it does to the table at hand. -/
theorem insertWith_congr {grow grow' : Action K ν Unit}
    (h : grow ⟨t, events⟩ = grow' ⟨t, events⟩) (key : κ) (value : ν) :
    insertWith grow key value ⟨t, events⟩ = insertWith grow' key value ⟨t, events⟩ := by
  cases hkey : K.vacates key with
  | true => rw [insertWith_reserved _ hkey, insertWith_reserved _ hkey]
  | false =>
    by_cases hfull : t.threshold ≤ t.count
    · rw [insertWith_full _ hkey hfull, insertWith_full _ hkey hfull]
      exact Call.bind_congr h _
    · have hroom := Nat.lt_of_not_le hfull
      rw [insertWith_room _ hkey hroom, insertWith_room _ hkey hroom]

end SlotArrays.Table
