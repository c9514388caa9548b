import SlotArrays.Proofs.Ring.Fifo

/-! What holds of every ring that a run comes to.

Head and tail are the same slot when a ring is empty and when it is full; only the count
tells these apart. `Invariant` says what a ring looks like from the outside: the places
counted from `head` on are taken as far as the count goes, and no other slot holds
anything. A ring has it as soon as it holds a list, whatever the list, so every run keeps
it, also where a ring could not grow any more. An item that comes to a full ring finds
the ring `Unrolled` afterwards: the items stand in the first slots of the new array, in
the order in which they came. -/
namespace SlotArrays.Ring
open SlotCircle
variable {α : Type} {r : Ring α} {items : List α}

/-- A ring between calls. -/
structure Invariant (r : Ring α) : Prop where
  power : r.capacity.isPowerOfTwo
  head_lt : r.head < r.capacity
  tail_lt : r.tail < r.capacity
  count_le : r.count ≤ r.capacity
  tail_eq : r.tail = (r.head + r.count) % r.capacity
  taken : ∀ i, i < r.count → ∃ item, r.slots[(r.head + i) % r.capacity]? = some (some item)
  /-- No item is left in a slot that was vacated. -/
  vacant : ∀ j, j < r.capacity → (∀ i, i < r.count → (r.head + i) % r.capacity ≠ j) →
    r.slots[j]? = some none

theorem Holds.invariant (h : r.Holds items) : r.Invariant := by
  have hs := h.isPowerOfTwo
  have hcount := h.count_eq
  refine ⟨hs, h.head_lt, h.tail_lt, hcount.trans_le h.length_le, ?_, fun i hi => ?_,
    fun j hj hother => ?_⟩
  · rw [h.tail_eq, wrap_eq_mod hs, hcount]
    rfl
  · rw [hcount] at hi
    refine ⟨items[i], ?_⟩
    show r.slots[(r.head + i) % r.slots.size]? = _
    rw [← wrap_eq_mod hs, h.slot i (hi.trans_le h.length_le), List.getElem?_eq_getElem hi]
  · -- The slot is some place of the ring, and that place is behind the last item.
    have hplace := wrap_ahead hs h.head_lt hj
    have hbehind : items.length ≤ ahead r.slots.size r.head j := by
      refine Nat.le_of_not_lt fun hlt => hother _ (hcount.symm ▸ hlt) ?_
      exact (wrap_eq_mod hs _).symm.trans hplace
    have hslot := h.slot _ (ahead_lt h.head_lt hj)
    rwa [hplace, List.getElem?_eq_none hbehind] at hslot

/-! ### Growth -/

/-- What a ring is after an item came for which it had to grow. -/
structure Unrolled (r : Ring α) (item : α) (r' : Ring α) : Prop where
  head : r'.head = 0
  tail : r'.tail = r'.count % r'.capacity
  count : r'.count = r.count + 1
  /-- The slots show what the ring had, from first to last, the new item behind it, and then
  nothing. -/
  slots : ∃ items, r.items = .ok items ∧ Lined r'.slots (items ++ [item])

theorem Enqueued.unrolled {item : α} {r' : Ring α} (hr : r.Holds items)
    (h : Enqueued r items item r') (hgrown : r'.capacity ≠ r.capacity) : Unrolled r item r' := by
  have hcapacity := h.capacity
  have hhead := h.head
  have hs := h.holds.isPowerOfTwo
  split at hhead
  · have hcount : r'.count = r.count + 1 := by
      rw [h.holds.count_eq, hr.count_eq, List.length_append]
      rfl
    refine ⟨hhead, ?_, hcount, items, Cursor.items_eq hr, fun i hi => ?_⟩
    · rw [h.holds.tail_eq, hhead, Nat.zero_add, wrap_eq_mod hs, h.holds.count_eq]
      rfl
    · have hslot := h.holds.slot i hi
      rwa [hhead, Nat.zero_add, wrap_of_lt hs hi] at hslot
  · rw [if_neg ‹_›] at hcapacity
    exact absurd hcapacity hgrown

theorem Holds.unrolled (h : r.Holds items) (item : α)
    (hgrown : (step r (.enqueue item)).held.capacity ≠ r.capacity) :
    Unrolled r item (step r (.enqueue item)).held := by
  rcases h.enqueue_cases item with ⟨r', henqueued, hstep⟩ | ⟨_, hstep⟩
  · rw [hstep] at hgrown ⊢
    exact henqueued.unrolled h hgrown
  · rw [hstep] at hgrown
    exact absurd rfl hgrown

/-! ### Runs -/

/-- An operation leaves a ring that holds some list, also one that breaks off. -/
theorem Holds.step_holds (h : r.Holds items) (op : RingOp α) :
    ∃ items', (step r op).held.Holds items' := by
  rcases h.step_cases op with hanswered | hoverflow
  · exact ⟨_, hanswered.holds⟩
  · obtain ⟨stored, hstored⟩ := hoverflow.holds
    exact ⟨_, hstored⟩

theorem Holds.after_holds (h : r.Holds items) (ops : List (RingOp α)) :
    ∃ items', (after r ops).Holds items' := by
  induction ops generalizing r items with
  | nil => exact ⟨items, h⟩
  | cons op ops ih =>
    obtain ⟨items', h'⟩ := h.step_holds op
    exact ih h'

theorem make_holds (making : RingMaking α) : ∃ items, (make making).held.Holds items := by
  rcases make_cases making with ⟨_, h⟩ | hoverflow
  · exact ⟨_, h⟩
  · obtain ⟨stored, h⟩ := hoverflow.holds
    exact ⟨_, h⟩

/-- **Every ring that a run comes to has the invariant, and a ring that grows is unrolled.** The
rings in the middle of an extension are among them: they are what shorter extensions leave. -/
theorem invariant_after (making : RingMaking α) (ops : List (RingOp α)) :
    (after (make making).held ops).Invariant ∧
    ∀ item, (step (after (make making).held ops) (.enqueue item)).held.capacity ≠
        (after (make making).held ops).capacity →
      Unrolled (after (make making).held ops) item
        (step (after (make making).held ops) (.enqueue item)).held := by
  obtain ⟨_, hmade⟩ := make_holds making
  obtain ⟨_, h⟩ := hmade.after_holds ops
  exact ⟨h.invariant, h.unrolled⟩

/-- Two slots, full, with the first item in the second one. The next item makes the ring grow. -/
theorem invariant_after_of_wrapped :
    Unrolled (after (withCapacity 2 : Ring Nat) [.enqueue 1, .enqueue 2, .dequeue, .enqueue 3]) 4
      (step (after (withCapacity 2 : Ring Nat) [.enqueue 1, .enqueue 2, .dequeue, .enqueue 3])
        (.enqueue 4)).held :=
  (invariant_after (.capacity 2) [.enqueue 1, .enqueue 2, .dequeue, .enqueue 3]).2 4
    (by decide +kernel)

end SlotArrays.Ring
