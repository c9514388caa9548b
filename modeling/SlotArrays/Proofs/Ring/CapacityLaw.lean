import SlotArrays.Proofs.Ring.Invariant

/-! The capacity of a ring.

A ring grows for an item that comes to a full one, and then to twice the slots. So its
capacity is at all times the larger of the first one and the least power of two with room for
the most items there have been (`peak`), whatever was expected and in whatever order items
came and went. `Grown` says this of one call, in a form that goes together over several; the
growths that the calls tell of lead from the first capacity to the last (`DoublesTo`). -/
namespace SlotArrays

/-- How many items an operation brings. -/
def RingOp.arrivals {α : Type} : RingOp α → Nat
  | .enqueue _ => 1
  | .extend more => more.length
  | _ => 0

namespace Ring
variable {α : Type} {r r' : Ring α} {items : List α}

/-! ### Growths -/

/-- The growths lead from one capacity to another, each of them to the double. -/
inductive DoublesTo : Nat → List RingEvent → Nat → Prop
  | nil {slots : Nat} : DoublesTo slots [] slots
  | grew {slots last : Nat} {events : List RingEvent} (more : DoublesTo (slots * 2) events last) :
      DoublesTo slots (.grew slots (slots * 2) :: events) last

theorem DoublesTo.append {first next last : Nat} {events more : List RingEvent}
    (h : DoublesTo first events next) (h' : DoublesTo next more last) :
    DoublesTo first (events ++ more) last := by
  induction h with
  | nil => exact h'
  | grew _ ih => exact .grew (ih h')

/-- A ring that calls have made of another one, by at most so many arrivals. -/
structure Grown (r : Ring α) (arrivals : Nat) (events : List RingEvent) (r' : Ring α) : Prop where
  capacity : IsLeastPower (max r.capacity r'.size) r'.capacity
  chain : DoublesTo r.capacity events r'.capacity
  once : events.length ≤ arrivals

theorem Holds.size_eq (h : r.Holds items) : r.size = items.length := h.count_eq

theorem Holds.size_le (h : r.Holds items) : r.size ≤ r.capacity :=
  h.count_eq.trans_le h.length_le

/-- The capacity stays as long as there is room. -/
theorem Grown.still (h : r.Holds items) (hcapacity : r'.capacity = r.capacity)
    (hroom : r'.size ≤ r.capacity) (arrivals : Nat) : Grown r arrivals [] r' := by
  refine ⟨?_, ?_, Nat.zero_le _⟩
  · rw [hcapacity, max_eq_left hroom]
    exact .self h.isPowerOfTwo
  · rw [hcapacity]
    exact .nil

/-- Growths go together, if the ring that is left last is not the smaller one. -/
theorem Grown.trans {r'' : Ring α} {m n : Nat} {events more : List RingEvent}
    (h : Grown r m events r') (h' : Grown r' n more r'') (hsize : r'.size ≤ r''.size) :
    Grown r (m + n) (events ++ more) r'' := by
  refine ⟨?_, h.chain.append h'.chain, ?_⟩
  · have hleast := h.capacity.trans h'.capacity
    rwa [max_assoc, max_eq_right hsize] at hleast
  · have := h.once
    have := h'.once
    rw [List.length_append]
    omega

/-! ### One operation -/

theorem Enqueued.grown {item : α} (hr : r.Holds items) (h : Enqueued r items item r') :
    Grown r 1 (growthEvents r r') r' := by
  have hcapacity := h.capacity
  have hsize : r'.size = items.length + 1 := by
    rw [h.holds.size_eq, List.length_append]
    rfl
  by_cases hfull : items.length = r.capacity
  · rw [if_pos hfull] at hcapacity
    have hpos : 0 < r.capacity := Nat.zero_lt_of_lt hr.head_lt
    have hgrew : growthEvents r r' = [.grew r.capacity (r.capacity * 2)] := by
      rw [growthEvents, hcapacity, if_neg (by omega)]
    rw [hgrew]
    refine ⟨?_, ?_, le_rfl⟩
    · rw [hcapacity, hsize, hfull, max_eq_right (Nat.le_succ _)]
      exact .double hr.isPowerOfTwo
    · rw [hcapacity]
      exact .grew .nil
  · rw [if_neg hfull] at hcapacity
    have hroom : items.length ≤ r.capacity := hr.length_le
    rw [growthEvents, if_pos hcapacity]
    exact .still hr hcapacity (by omega) 1

/-- Storing items one after the other. In between the ring is never larger than at the end. -/
theorem Stores.grown {more : List α} {events : List RingEvent} (h : Stores r items more events r')
    (hr : r.Holds items) : Grown r more.length events r' := by
  induction h with
  | nil hr => exact .still hr rfl hr.size_le 0
  | cons first rest ih =>
    rw [List.length_cons, Nat.add_comm]
    refine (first.grown hr).trans (ih first.holds) ?_
    rw [first.holds.size_eq, rest.holds.size_eq]
    exact (List.sublist_append_left ..).length_le

theorem Extended.grown {more : List α} {report : Call.Report (Ring α) RingEvent Unit}
    (h : Extended r items more report) (hr : r.Holds items) :
    Grown r more.length report.events report.held := by
  cases h with
  | all hstores => exact hstores.grown hr
  | broken hstores _ =>
    have hgrown := hstores.grown hr
    exact {hgrown with once := hgrown.once.trans (List.sublist_append_left ..).length_le}

theorem Holds.grown_step (h : r.Holds items) (op : RingOp α) :
    Grown r op.arrivals (step r op).events (step r op).held := by
  cases op with
  | enqueue item =>
    rcases h.enqueue_cases item with ⟨r', h', hstep⟩ | ⟨_, hstep⟩
    · rw [hstep]
      exact h'.grown h
    · rw [hstep]
      exact .still h rfl h.size_le 1
  | extend more =>
    rw [step_extend]
    exact (h.extended more).grown h
  | dequeue =>
    rw [h.step_dequeue]
    cases items with
    | nil => exact .still h rfl h.size_le 0
    | cons item items =>
      have hcapacity : r.shifted.capacity = r.capacity := Array.size_setIfInBounds
      have hsize : r.shifted.size ≤ r.size := Nat.sub_le ..
      exact .still h hcapacity (hsize.trans h.size_le) 0
  | _ =>
    rw [h.step_reads rfl]
    exact .still h rfl h.size_le 0

/-! ### Runs -/

/-- The most items there have been: in the ring at first, and behind each operation. An
extension has its most items at its end. -/
def peak (r : Ring α) : List (RingOp α) → Nat
  | [] => r.size
  | op :: ops => max r.size (peak (step r op).held ops)

def eventsOf (r : Ring α) (ops : List (RingOp α)) : List RingEvent :=
  (run r ops).flatMap (·.events)

theorem size_le_peak (r : Ring α) (ops : List (RingOp α)) : r.size ≤ peak r ops := by
  cases ops with
  | nil => exact le_rfl
  | cons op ops => exact le_max_left ..

theorem Holds.leastPower_after (h : r.Holds items) (ops : List (RingOp α)) :
    IsLeastPower (max r.capacity (peak r ops)) (after r ops).capacity := by
  induction ops generalizing r items with
  | nil =>
    rw [peak, max_eq_left h.size_le]
    exact .self h.isPowerOfTwo
  | cons op ops ih =>
    obtain ⟨_, hnext⟩ := h.step_holds op
    have hpeak := size_le_peak (step r op).held ops
    have hleast := (h.grown_step op).capacity.trans (ih hnext)
    rw [max_assoc, max_eq_right hpeak] at hleast
    rwa [peak, ← max_assoc, max_eq_left h.size_le]

theorem Holds.doublesTo_after (h : r.Holds items) (ops : List (RingOp α)) :
    DoublesTo r.capacity (eventsOf r ops) (after r ops).capacity := by
  induction ops generalizing r items with
  | nil => exact .nil
  | cons op ops ih =>
    obtain ⟨_, hnext⟩ := h.step_holds op
    exact (h.grown_step op).chain.append (ih hnext)

/-- How the capacity of a ring goes over a run. -/
structure CapacityLaw (making : RingMaking α) (ops : List (RingOp α)) : Prop where
  /-- The first capacity, or the least one with room for the most items there have been. -/
  capacity : ∃ p, IsLeastPower (peak (make making).held ops) p ∧
    (after (make making).held ops).capacity = max (slotCount making.requested) p
  chain : DoublesTo (slotCount making.requested)
    ((make making).events ++ eventsOf (make making).held ops)
    (after (make making).held ops).capacity
  /-- One growth at most for each item that comes, be it to a new ring or with an operation. -/
  once : (make making).events.length ≤ making.contents.length ∧
    ∀ op, (step (after (make making).held ops) op).events.length ≤ op.arrivals

/-- **The capacity is the larger of the first one and the least power of two with room for the
most items there have been,** and a ring that is given items holds them in order, whatever
number of them was expected. -/
theorem capacity_after (making : RingMaking α) (ops : List (RingOp α)) :
    CapacityLaw making ops ∧
    ((make making).held.capacity < 2 ^ 63 →
      (make making).answer = .ok () ∧ (make making).held.items = .ok making.contents) := by
  obtain ⟨_, hmade⟩ := make_holds making
  obtain ⟨_, hafter⟩ := hmade.after_holds ops
  have hfirst : (withCapacity making.requested : Ring α).Holds [] := .withCapacity _
  have hgrown := (make_extended making).grown hfirst
  have hpower : (slotCount making.requested).isPowerOfTwo := by
    rw [← capacity_withCapacity (α := α)]
    exact hfirst.isPowerOfTwo
  refine ⟨⟨?_, ?_, hgrown.once, fun op => (hafter.grown_step op).once⟩, fun hsize => ?_⟩
  · have hleast := hgrown.capacity.trans (hmade.leastPower_after ops)
    rw [max_assoc, max_eq_right (size_le_peak ..), capacity_withCapacity] at hleast
    have hp := IsLeastPower.of_size (peak (make making).held ops)
    exact ⟨_, hp, hleast.unique (.max_left hpower hp)⟩
  · rw [← capacity_withCapacity (α := α)]
    exact hgrown.chain.append (hmade.doublesTo_after ops)
  · rcases make_cases making with ⟨hanswer, hcontents⟩ | hoverflow
    · exact ⟨hanswer, Cursor.items_eq hcontents⟩
    · exact absurd hsize (Nat.not_lt.mpr hoverflow.capacity)

/-- Nothing was expected and nine items came; then one of them goes, and two more come. -/
theorem capacity_after_of_underestimated :
    CapacityLaw (.items 0 [1, 2, 3, 4, 5, 6, 7, 8, 9]) [.dequeue, .extend [10, 11], .size] ∧
    (make (.items 0 [1, 2, 3, 4, 5, 6, 7, 8, 9])).held.capacity < 2 ^ 63 ∧
    (make (.items 0 [1, 2, 3, 4, 5, 6, 7, 8, 9])).held.items = .ok [1, 2, 3, 4, 5, 6, 7, 8, 9] := by
  obtain ⟨hlaw, hitems⟩ := capacity_after (.items 0 [1, 2, 3, 4, 5, 6, 7, 8, 9])
    [.dequeue, .extend [10, 11], .size]
  have hsize : (make (.items 0 [1, 2, 3, 4, 5, 6, 7, 8, 9])).held.capacity < 2 ^ 63 := by
    decide +kernel
  exact ⟨hlaw, hsize, (hitems hsize).2⟩

end Ring
end SlotArrays
