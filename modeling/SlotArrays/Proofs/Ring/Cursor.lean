import SlotArrays.Proofs.Ring.Calls

/-! Cursors over a ring.

A cursor that was asked `i` times stands behind `i` places of the ring, or at the end if
there are no more (`reached`). Asked again it reads what the list has at `i`: its items,
and then nothing. What is said to be left is what the steps to come answer. -/
namespace SlotArrays.Cursor
variable {α : Type} {r : Ring α} {items : List α}

/-- A cursor over a ring with so many items that was asked `i` times. -/
def reached (r : Ring α) (items : List α) (i : Nat) : Cursor α := ⟨r, min i items.length⟩

theorem reached_zero (r : Ring α) (items : List α) : reached r items 0 = r.cursor := by
  rw [reached, Nat.zero_min]
  rfl

theorem next_reached (h : r.Holds items) (i : Nat) :
    (reached r items i).next = .ok (items[i]?, reached r items (i + 1)) := by
  rcases Nat.lt_or_ge i items.length with hi | hi
  · have hplace : reached r items i = ⟨r, i⟩ := by rw [reached, Nat.min_eq_left hi.le]
    have hslot : slotAt r.slots (wrap r.slots.size (r.head + i)) = .ok items[i]? :=
      Ring.slotAt_of_getElem (h.slot i (hi.trans_le h.length_le))
    have hcount : ¬ r.count ≤ i := by rwa [h.count_eq, Nat.not_le]
    rw [hplace, next, if_neg hcount, Ring.capacity, hslot, reached, Nat.min_eq_left hi]
    rfl
  · have hend : reached r items i = ⟨r, items.length⟩ := by rw [reached, Nat.min_eq_right hi]
    have hcount : r.count ≤ items.length := h.count_eq.le
    rw [hend, next, if_pos hcount, List.getElem?_eq_none hi, reached,
      Nat.min_eq_right (Nat.le_succ_of_le hi)]

theorem nexts_reached (h : r.Holds items) (n i : Nat) :
    nexts n (reached r items i) =
      .ok ((List.range' i n).map fun place => items[place]?, reached r items (i + n)) := by
  induction n generalizing i with
  | zero => rfl
  | succ n ih =>
    rw [nexts, next_reached h]
    show (nexts n (reached r items (i + 1)) >>= _) = _
    rw [ih, List.range'_succ, List.map_cons, show i + 1 + n = i + (n + 1) by omega]
    rfl

theorem left_reached (h : r.Holds items) (i : Nat) :
    (reached r items i).left = .ok (items.length - i) := by
  have hcount : ¬ r.count < min i items.length := by
    rw [h.count_eq, Nat.not_lt]
    exact Nat.min_le_right ..
  have hleft : items.length - min i items.length = items.length - i := by omega
  rw [left, reached, if_neg hcount, h.count_eq, hleft]

theorem sizeHint_reached (h : r.Holds items) (i : Nat) :
    (reached r items i).sizeHint = .ok (items.length - i, some (items.length - i)) := by
  rw [sizeHint, left_reached h]
  rfl

/-- What a cursor still yields, when it is asked often enough to come to the end. -/
theorem drain_reached (h : r.Holds items) {steps i : Nat} (hsteps : items.length - i < steps) :
    drain steps (reached r items i) = .ok (items.drop i) := by
  induction steps generalizing i with
  | zero => omega
  | succ steps ih =>
    rw [drain, next_reached h]
    rcases Nat.lt_or_ge i items.length with hi | hi
    · rw [List.getElem?_eq_getElem hi, List.drop_eq_getElem_cons hi]
      show (drain steps (reached r items (i + 1)) >>= _) = _
      rw [ih (by omega)]
      rfl
    · rw [List.getElem?_eq_none hi, List.drop_of_length_le hi]
      rfl

/-- A ring yields the list that it holds. -/
theorem items_eq (h : r.Holds items) : r.items = .ok items := by
  rw [Ring.items, ← reached_zero r items, drain_reached h (by rw [h.count_eq]; omega),
    List.drop_zero]

end SlotArrays.Cursor
