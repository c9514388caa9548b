import SlotArrays.Proofs.Call
import SlotArrays.Proofs.Ring.Contents
import SlotArrays.Ring.Cursor

/-! What the calls on a ring come back with.

On a ring that holds a list every call is an equation: its answer and the ring it leaves,
in terms of the list. The one call that may break off is the growth of a full ring, when
the doubled array does not fit the range of sizes. -/
namespace SlotArrays

/-- The sizes at which a doubling no longer fits. -/
theorem sizeLimit_le_double {size : Nat} : sizeLimit ≤ size * 2 ↔ 2 ^ 63 ≤ size := by
  rw [show sizeLimit = 2 ^ 64 by decide]
  omega

namespace Ring
open SlotCircle
variable {α : Type} {r : Ring α} {items : List α} {item : α} {events : List RingEvent} {i : Nat}

/-! ### Single slots -/

theorem slotAt_of_getElem {slots : Array (Option α)} {x : Option α} (h : slots[i]? = some x) :
    slotAt slots i = .ok x := by
  obtain ⟨hi, rfl⟩ := Array.getElem?_eq_some_iff.mp h
  rw [slotAt, dif_pos hi]

theorem slot_ok {x : Option α} (h : r.slots[i]? = some x) :
    slot i ⟨r, events⟩ = .ok x ⟨r, events⟩ :=
  Call.lift_ok (slotAt_of_getElem h)

theorem writeSlot_ok (h : i < r.slots.size) (x : Option α) : writeSlot i x ⟨r, events⟩ =
    .ok () ⟨{r with slots := r.slots.setIfInBounds i x}, events⟩ := by
  apply Call.bind_eq (Call.view_ok ..)
  rw [if_pos h]
  rfl

/-! ### Growth -/

/-- The loop of a growth, from the time on when the first `i` items have been moved. -/
theorem Holds.moveFrom_ok (h : r.Holds items) {slots : Array (Option α)}
    (hroom : items.length ≤ slots.size) {left : Nat} (hleft : i + left = items.length)
    (hmoved : Lined slots (items.take i)) (new : Ring α) (events : List RingEvent) :
    ∃ slots' : Array (Option α), slots'.size = slots.size ∧ Lined slots' items ∧
      moveFrom r left i ⟨{new with slots := slots}, events⟩ =
        .ok () ⟨{new with slots := slots'}, events⟩ := by
  induction left generalizing i slots with
  | zero =>
    rw [List.take_of_length_le (by omega)] at hmoved
    exact ⟨slots, rfl, hmoved, rfl⟩
  | succ left ih =>
    have hi : i < items.length := by omega
    have hitem : r.slots[wrap r.slots.size (r.head + i)]? = some items[i]? :=
      h.slot i (hi.trans_le h.length_le)
    have hwrite : (slots.setIfInBounds i items[i]?).size = slots.size := Array.size_setIfInBounds
    obtain ⟨slots', hsize, hlined, hrest⟩ :=
      ih (hroom.trans_eq hwrite.symm) (by omega) hmoved.write
    refine ⟨slots', hsize.trans hwrite, hlined, ?_⟩
    apply Call.bind_eq (Call.lift_ok (slotAt_of_getElem hitem))
    exact Call.bind_eq (writeSlot_ok (show i < slots.size by omega) _) hrest

/-- A ring that has grown holds the same items, the first one in the first slot. -/
theorem Holds.grow_ok (h : r.Holds items) (hsize : r.capacity < 2 ^ 63) (events : List RingEvent) :
    ∃ r' : Ring α, r'.Holds items ∧ r'.capacity = r.capacity * 2 ∧ r'.head = 0 ∧
      grow ⟨r, events⟩ = .ok () ⟨r', events ++ [.grew r.capacity (r.capacity * 2)]⟩ := by
  obtain ⟨k, hk, hpower⟩ := h.power
  have hdoubled : r.capacity * 2 = 2 ^ (k + 1) := by rw [capacity, hpower, pow_succ]
  have hk' : k + 1 < 64 := by
    rw [capacity, hpower, Nat.pow_lt_pow_iff_right (by decide)] at hsize
    omega
  have hlength : items.length < r.capacity * 2 := by
    have := h.length_le
    have := h.head_lt
    rw [capacity]
    omega
  have hvacant : (Array.replicate (r.capacity * 2) (none : Option α)).size = r.capacity * 2 :=
    Array.size_replicate
  obtain ⟨slots, hslots, hlined, hmove⟩ := h.moveFrom_ok (hlength.le.trans_eq hvacant.symm)
    (Nat.zero_add _) (.replicate _) r events
  rw [hvacant] at hslots
  have hheld := hlined.holds hk' (hslots.trans hdoubled) (hlength.trans_eq hslots.symm)
  refine ⟨_, hheld, hslots, rfl, ?_⟩
  refine Call.bind_eq (a := r) rfl ?_
  rw [if_neg (mt sizeLimit_le_double.mp (Nat.not_le.mpr hsize))]
  rw [← h.count_eq] at hmove ⊢
  refine Call.bind_eq rfl ?_
  exact Call.bind_eq hmove rfl

/-- A growth past the range of sizes breaks off before it changes anything. -/
theorem grow_overflow (hsize : 2 ^ 63 ≤ r.capacity) (events : List RingEvent) :
    grow ⟨r, events⟩ = .error .capacityOverflow ⟨r, events⟩ := by
  refine Call.bind_eq (a := r) rfl ?_
  rw [if_pos (sizeLimit_le_double.mpr hsize)]
  rfl

/-! ### Appending -/

theorem append_ok (h : r.tail < r.slots.size) (item : α) :
    append item ⟨r, events⟩ = .ok () ⟨r.appended item, events⟩ := by
  apply Call.bind_eq (Call.view_ok ..)
  refine Call.bind_eq (writeSlot_ok h _) ?_
  show EStateM.Result.ok () (Traced.mk (Ring.mk _ _ (wrap (r.slots.setIfInBounds ..).size _) _) _) = _
  rw [Array.size_setIfInBounds]
  rfl

theorem enqueue_room (h : r.count ≠ r.slots.size) (item : α) :
    enqueue item ⟨r, events⟩ = append item ⟨r, events⟩ := by
  apply Call.bind_eq (Call.view_ok ..)
  rw [beq_false_of_ne h]
  rfl

theorem enqueue_full (h : r.count = r.slots.size) (item : α) :
    enqueue item ⟨r, events⟩ = (grow >>= fun _ => append item) ⟨r, events⟩ := by
  apply Call.bind_eq (Call.view_ok ..)
  rw [beq_iff_eq.mpr h]
  rfl

/-- What a growth from one ring to the other tells of. -/
def growthEvents (r r' : Ring α) : List RingEvent :=
  if r'.capacity = r.capacity then [] else [.grew r.capacity r'.capacity]

/-- What a ring with the given items is after one more came. -/
structure Enqueued (r : Ring α) (items : List α) (item : α) (r' : Ring α) : Prop where
  holds : r'.Holds (items ++ [item])
  capacity : r'.capacity = if items.length = r.capacity then r.capacity * 2 else r.capacity
  /-- In a ring that has grown the first item is in the first slot. -/
  head : r'.head = if items.length = r.capacity then 0 else r.head

theorem Holds.enqueue_ok (h : r.Holds items) (hsize : items.length = r.capacity → r.capacity < 2 ^ 63)
    (item : α) (events : List RingEvent) :
    ∃ r' : Ring α, Enqueued r items item r' ∧
      enqueue item ⟨r, events⟩ = .ok () ⟨r', events ++ growthEvents r r'⟩ := by
  by_cases hfull : items.length = r.capacity
  · obtain ⟨r', h', hcapacity, hhead, hgrow⟩ := h.grow_ok (hsize hfull) events
    have hpos : 0 < r.capacity := Nat.zero_lt_of_lt h.head_lt
    have hroom : items.length < r'.slots.size := by
      show _ < r'.capacity
      omega
    have hdoubled : (r'.appended item).capacity = r.capacity * 2 :=
      Array.size_setIfInBounds.trans hcapacity
    refine ⟨r'.appended item, ⟨h'.appended hroom item, ?_, ?_⟩, ?_⟩
    · rw [if_pos hfull, hdoubled]
    · rw [if_pos hfull]
      exact hhead
    · rw [enqueue_full (h.count_eq.trans hfull), growthEvents, hdoubled, if_neg (by omega)]
      exact Call.bind_eq hgrow (append_ok h'.tail_lt item)
  · have hroom : items.length < r.slots.size := Nat.lt_of_le_of_ne h.length_le hfull
    have hsame : (r.appended item).capacity = r.capacity := Array.size_setIfInBounds
    refine ⟨r.appended item, ⟨h.appended hroom item, ?_, ?_⟩, ?_⟩
    · rw [if_neg hfull, hsame]
    · rw [if_neg hfull]
      rfl
    · rw [enqueue_room (by rwa [h.count_eq]), growthEvents, if_pos hsame, List.append_nil]
      exact append_ok h.tail_lt item

theorem Holds.enqueue_overflow (h : r.Holds items) (hfull : items.length = r.capacity)
    (hsize : 2 ^ 63 ≤ r.capacity) (item : α) (events : List RingEvent) :
    enqueue item ⟨r, events⟩ = .error .capacityOverflow ⟨r, events⟩ := by
  rw [enqueue_full (h.count_eq.trans hfull)]
  exact Call.bind_error (grow_overflow hsize events)

/-- Items that are stored one after the other, with the growths that are told of. -/
inductive Stores : Ring α → List α → List α → List RingEvent → Ring α → Prop
  | nil {r : Ring α} {items : List α} (h : r.Holds items) : Stores r items [] [] r
  | cons {r r' r'' : Ring α} {items more : List α} {item : α} {events : List RingEvent}
      (first : Enqueued r items item r') (rest : Stores r' (items ++ [item]) more events r'') :
      Stores r items (item :: more) (growthEvents r r' ++ events) r''

theorem Stores.holds {r' : Ring α} {more : List α} (h : Stores r items more events r') :
    r'.Holds (items ++ more) := by
  induction h with
  | nil h => rwa [List.append_nil]
  | cons _ _ ih => rwa [List.append_assoc] at ih

/-- Of the items that come, all are stored, or those before the one for which the ring could
not grow. -/
theorem Holds.extend_cases (h : r.Holds items) (more : List α) (events : List RingEvent) :
    ∃ (stored rest : List α) (new : List RingEvent) (r' : Ring α),
      more = stored ++ rest ∧ Stores r items stored new r' ∧
      (rest = [] ∧ extend more ⟨r, events⟩ = .ok () ⟨r', events ++ new⟩ ∨
        2 ^ 63 ≤ r'.capacity ∧
          extend more ⟨r, events⟩ = .error .capacityOverflow ⟨r', events ++ new⟩) := by
  induction more generalizing r items events with
  | nil =>
    refine ⟨[], [], [], r, rfl, .nil h, .inl ⟨rfl, ?_⟩⟩
    rw [List.append_nil]
    rfl
  | cons item more ih =>
    by_cases hspent : items.length = r.capacity ∧ 2 ^ 63 ≤ r.capacity
    · obtain ⟨hfull, hsize⟩ := hspent
      refine ⟨[], item :: more, [], r, rfl, .nil h, .inr ⟨hsize, ?_⟩⟩
      rw [List.append_nil]
      exact Call.bind_error (h.enqueue_overflow hfull hsize item events)
    · obtain ⟨r', h', henqueue⟩ := h.enqueue_ok (by omega) item events
      obtain ⟨stored, rest, new, r'', rfl, hstores, hextend⟩ :=
        ih h'.holds (events ++ growthEvents r r')
      refine ⟨item :: stored, rest, _, r'', rfl, .cons h' hstores, ?_⟩
      rw [← List.append_assoc]
      rcases hextend with ⟨hrest, hextend⟩ | ⟨hsize, hextend⟩
      · exact .inl ⟨hrest, Call.bind_eq henqueue hextend⟩
      · exact .inr ⟨hsize, Call.bind_eq henqueue hextend⟩

/-- What comes of an extension: all items are stored, or those before the one for which the ring
could not grow. -/
inductive Extended (r : Ring α) (items : List α) :
    List α → Call.Report (Ring α) RingEvent Unit → Prop
  | all {more : List α} {events : List RingEvent} {r' : Ring α}
      (stores : Stores r items more events r') : Extended r items more ⟨.ok (), r', events⟩
  | broken {stored rest : List α} {events : List RingEvent} {r' : Ring α}
      (stores : Stores r items stored events r') (size : 2 ^ 63 ≤ r'.capacity) :
      Extended r items (stored ++ rest) ⟨.error .capacityOverflow, r', events⟩

theorem Holds.extended (h : r.Holds items) (more : List α) :
    Extended r items more ((extend more).report r) := by
  obtain ⟨stored, rest, new, r', rfl, hstores, ⟨rfl, hextend⟩ | ⟨hsize, hextend⟩⟩ :=
    h.extend_cases more []
  · rw [Call.report_ok hextend, List.append_nil]
    exact .all hstores
  · rw [Call.report_error hextend]
    exact .broken hstores hsize

/-! ### The first item -/

theorem Holds.isEmpty_eq (h : r.Holds items) : r.isEmpty = items.isEmpty := by
  rw [isEmpty, h.count_eq]
  cases items <;> rfl

theorem Holds.dequeue_nil (h : r.Holds []) :
    dequeue ⟨r, events⟩ = .ok (.error .empty) ⟨r, events⟩ := by
  apply Call.bind_eq (Call.view_ok ..)
  rw [h.isEmpty_eq]
  rfl

theorem Holds.dequeue_cons (h : r.Holds (item :: items)) :
    dequeue ⟨r, events⟩ = .ok (.ok item) ⟨r.shifted, events⟩ := by
  apply Call.bind_eq (Call.view_ok ..)
  rw [h.isEmpty_eq]
  apply Call.bind_eq (Call.view_ok ..)
  refine Call.bind_eq (slot_ok h.head_slot) ?_
  refine Call.bind_eq (writeSlot_ok h.head_lt _) ?_
  refine Call.bind_eq rfl ?_
  show EStateM.Result.ok (Except.ok item) (Traced.mk
    (Ring.mk _ (wrap (r.slots.setIfInBounds r.head none).size (r.head + 1)) _ _) _) = _
  rw [Array.size_setIfInBounds]
  rfl

theorem Holds.peek_nil (h : r.Holds []) : peek ⟨r, events⟩ = .ok (.error .empty) ⟨r, events⟩ := by
  apply Call.bind_eq (Call.view_ok ..)
  rw [h.isEmpty_eq]
  rfl

theorem Holds.peek_cons (h : r.Holds (item :: items)) :
    peek ⟨r, events⟩ = .ok (.ok item) ⟨r, events⟩ := by
  apply Call.bind_eq (Call.view_ok ..)
  rw [h.isEmpty_eq]
  apply Call.bind_eq (Call.view_ok ..)
  exact Call.bind_eq (slot_ok h.head_slot) rfl

end Ring
end SlotArrays
