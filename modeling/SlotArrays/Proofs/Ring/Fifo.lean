import SlotArrays.Proofs.Ring.Cursor
import SlotArrays.Ring.Operation

/-! A ring is a list, first in, first out.

`Fifo` says what each operation answers when the items are a plain list, and what it makes
of the list. A ring that holds the list answers the same and holds the list that comes of
it, unless it would have to grow past the range of sizes (`Holds.step_cases`). So as long
as the capacity stays below half of that range, a ring answers every run as the list does,
and an operation that leaves the list alone leaves the ring alone (`mirrors_fifo`). -/
namespace SlotArrays

namespace Fifo
variable {α : Type}

/-- What an operation makes of the items. -/
def next (items : List α) : RingOp α → List α
  | .enqueue item => items ++ [item]
  | .extend more => items ++ more
  | .dequeue => items.tail
  | _ => items

/-- The first of the items, if there is one. -/
def first : List α → RingAnswer α
  | [] => .refused .empty
  | item :: _ => .item item

def answer (items : List α) : RingOp α → RingAnswer α
  | .enqueue _ | .extend _ => .done
  | .dequeue | .peek => first items
  | .items => .items items
  | .steps number =>
    -- Behind the last item there is nothing, at every further step.
    .stepped ((List.range number).map fun place => items[place]?) (items.length - number)
      (items.length - number, some (items.length - number))
  | .size => .number items.length
  | .isEmpty => .truth items.isEmpty

end Fifo

namespace RingMaking
variable {α : Type}

/-- The items that a new ring is given. -/
def contents : RingMaking α → List α
  | .items _ given => given
  | _ => []

/-- The capacity that a new ring is made for, before it is given anything. -/
def requested : RingMaking α → Nat
  | .empty => defaultRingCapacity
  | .capacity requested => requested
  | .items expected _ => max expected defaultRingCapacity

end RingMaking

/-- Whether an operation leaves the items alone. -/
def RingOp.reads {α : Type} : RingOp α → Bool
  | .enqueue _ | .extend _ | .dequeue => false
  | _ => true

namespace Ring
variable {α : Type} {r : Ring α} {items : List α}

/-! ### What an operation does -/

/-- The report is what the list says. -/
structure Answered (r : Ring α) (items : List α) (op : RingOp α)
    (report : Call.Report (Ring α) RingEvent (RingAnswer α)) : Prop where
  answer : report.answer = .ok (Fifo.answer items op)
  holds : report.held.Holds (Fifo.next items op)
  kept : Fifo.next items op = items → report.held = r

/-- The ring was full and could not grow. Of the items that came some may be stored. -/
structure Overflowed {β : Type} (items : List α) (report : Call.Report (Ring α) RingEvent β) :
    Prop where
  answer : report.answer = .error .capacityOverflow
  holds : ∃ stored, report.held.Holds (items ++ stored)
  capacity : 2 ^ 63 ≤ report.held.capacity

/-- An item that comes is stored, or finds the ring full and no room to grow. -/
theorem Holds.enqueue_cases (h : r.Holds items) (item : α) :
    (∃ r' : Ring α, Enqueued r items item r' ∧
      step r (.enqueue item) = ⟨.ok .done, r', growthEvents r r'⟩) ∨
    2 ^ 63 ≤ r.capacity ∧ step r (.enqueue item) = ⟨.error .capacityOverflow, r, []⟩ := by
  by_cases hspent : items.length = r.capacity ∧ 2 ^ 63 ≤ r.capacity
  · obtain ⟨hfull, hsize⟩ := hspent
    have hstep : perform (.enqueue item) ⟨r, []⟩ = .error .capacityOverflow ⟨r, []⟩ :=
      Call.bind_error (h.enqueue_overflow hfull hsize item [])
    exact .inr ⟨hsize, Call.report_error hstep⟩
  · obtain ⟨r', h', henqueue⟩ := h.enqueue_ok (by omega) item []
    have hstep : perform (.enqueue item) ⟨r, []⟩ = .ok .done ⟨r', growthEvents r r'⟩ :=
      Call.bind_eq henqueue rfl
    exact .inl ⟨r', h', Call.report_ok hstep⟩

theorem step_extend (r : Ring α) (more : List α) : step r (.extend more) =
    ⟨((extend more).report r).answer.map fun _ => .done, ((extend more).report r).held,
      ((extend more).report r).events⟩ :=
  Call.report_answer (extend more) RingAnswer.done r

/-- The first item goes, if there is one. -/
theorem Holds.step_dequeue (h : r.Holds items) : step r .dequeue =
    ⟨.ok (Fifo.first items), if items = [] then r else r.shifted, []⟩ := by
  cases items with
  | nil =>
    have hstep : perform .dequeue ⟨r, []⟩ = .ok (.refused .empty) ⟨r, []⟩ :=
      Call.bind_eq h.dequeue_nil rfl
    exact Call.report_ok hstep
  | cons item items =>
    have hstep : perform .dequeue ⟨r, []⟩ = .ok (.item item) ⟨r.shifted, []⟩ :=
      Call.bind_eq h.dequeue_cons rfl
    exact Call.report_ok hstep

/-- An operation that only reads answers from the list and leaves the ring as it is. -/
theorem Holds.step_reads (h : r.Holds items) {op : RingOp α} (hop : op.reads = true) :
    step r op = ⟨.ok (Fifo.answer items op), r, []⟩ := by
  have hstep : perform op ⟨r, []⟩ = .ok (Fifo.answer items op) ⟨r, []⟩ := by
    cases op with
    | enqueue item => cases hop
    | extend more => cases hop
    | dequeue => cases hop
    | peek =>
      cases items with
      | nil => exact Call.bind_eq h.peek_nil rfl
      | cons item items => exact Call.bind_eq h.peek_cons rfl
    | items =>
      exact Call.bind_eq (Call.view_ok ..) (Call.bind_eq (Call.lift_ok (Cursor.items_eq h)) rfl)
    | steps number =>
      have hnexts := Cursor.nexts_reached h number 0
      rw [Cursor.reached_zero, Nat.zero_add, ← List.range_eq_range'] at hnexts
      refine Call.bind_eq (Call.view_ok ..) (Call.bind_eq (Call.lift_ok hnexts) ?_)
      refine Call.bind_eq (Call.lift_ok (Cursor.left_reached h number)) ?_
      exact Call.bind_eq (Call.lift_ok (Cursor.sizeHint_reached h number)) rfl
    | size =>
      show EStateM.Result.ok (RingAnswer.number r.count) _ = _
      rw [h.count_eq]
      rfl
    | isEmpty =>
      show EStateM.Result.ok (RingAnswer.truth r.isEmpty) _ = _
      rw [h.isEmpty_eq]
      rfl
  exact Call.report_ok hstep

/-- **An operation on a ring answers as on the list,** or the ring would have to grow past the
range of sizes. -/
theorem Holds.step_cases (h : r.Holds items) (op : RingOp α) :
    Answered r items op (step r op) ∨ Overflowed items (step r op) := by
  cases op with
  | enqueue item =>
    rcases h.enqueue_cases item with ⟨r', h', hstep⟩ | ⟨hsize, hstep⟩
    · rw [hstep]
      refine .inl ⟨rfl, h'.holds, fun hsame => ?_⟩
      exact absurd (List.append_right_eq_self.mp hsame) (List.cons_ne_nil item [])
    · rw [hstep]
      exact .inr ⟨rfl, ⟨[], by rwa [List.append_nil]⟩, hsize⟩
  | extend more =>
    have hextended := h.extended more
    rw [step_extend]
    generalize (extend more).report r = report at hextended
    cases hextended with
    | all hstores =>
      refine .inl ⟨rfl, hstores.holds, fun hsame => ?_⟩
      obtain rfl := List.append_right_eq_self.mp hsame
      cases hstores
      rfl
    | broken hstores hsize => exact .inr ⟨rfl, ⟨_, hstores.holds⟩, hsize⟩
  | dequeue =>
    rw [h.step_dequeue]
    cases items with
    | nil => exact .inl ⟨rfl, h, fun _ => rfl⟩
    | cons item items =>
      exact .inl ⟨rfl, h.shifted, fun hsame => absurd hsame.symm (List.cons_ne_self item items)⟩
  | _ =>
    rw [h.step_reads rfl]
    exact .inl ⟨rfl, h, fun _ => rfl⟩

/-! ### Runs -/

/-- Over a list of operations the ring answers as the list does, and stays as it is when the list
does. -/
inductive Mirrors : Ring α → List α → List (RingOp α) → Prop
  | nil {r : Ring α} {items : List α} : Mirrors r items []
  | cons {r : Ring α} {items : List α} {op : RingOp α} {ops : List (RingOp α)}
      (answer : (step r op).answer = .ok (Fifo.answer items op))
      (kept : Fifo.next items op = items → (step r op).held = r)
      (more : Mirrors (step r op).held (Fifo.next items op) ops) : Mirrors r items (op :: ops)

theorem Holds.mirrors (h : r.Holds items) {ops : List (RingOp α)}
    (hsize : ∀ report ∈ run r ops, report.held.capacity < 2 ^ 63) : Mirrors r items ops := by
  induction ops generalizing r items with
  | nil => exact .nil
  | cons op ops ih =>
    have hfirst : (step r op).held.capacity < 2 ^ 63 := hsize _ List.mem_cons_self
    rcases h.step_cases op with ⟨hanswer, hholds, hkept⟩ | hoverflow
    · exact .cons hanswer hkept (ih hholds fun report hmem => hsize _ (List.mem_cons_of_mem _ hmem))
    · exact absurd hfirst (Nat.not_lt.mpr hoverflow.capacity)

theorem capacity_withCapacity (requested : Nat) :
    (withCapacity requested : Ring α).capacity = slotCount requested := by
  rw [withCapacity, vacant, capacity, Array.size_replicate]

theorem Holds.withCapacity (requested : Nat) : (withCapacity requested : Ring α).Holds [] := by
  obtain ⟨k, hk, hsize⟩ := exists_slotCount requested
  rw [Ring.withCapacity, hsize]
  exact .vacant (by omega)

/-- All ways to make a ring come down to one: it is made vacant, and then it is extended. -/
theorem make_eq (making : RingMaking α) :
    make making = (extend making.contents).report (withCapacity making.requested) := by
  cases making <;> rfl

theorem make_extended (making : RingMaking α) :
    Extended (withCapacity making.requested) [] making.contents (make making) := by
  rw [make_eq]
  exact (Holds.withCapacity _).extended _

/-- A new ring holds what it was given. -/
theorem make_cases (making : RingMaking α) :
    ((make making).answer = .ok () ∧ (make making).held.Holds making.contents) ∨
      Overflowed [] (make making) := by
  have hextended := make_extended making
  generalize make making = report, making.contents = contents at hextended
  cases hextended with
  | all hstores => exact .inl ⟨rfl, hstores.holds⟩
  | broken hstores hsize => exact .inr ⟨rfl, ⟨_, hstores.holds⟩, hsize⟩

/-- **A ring answers every run as a list does**, first in, first out, while its capacity is below
half of the range of sizes. -/
theorem mirrors_fifo (making : RingMaking α) (ops : List (RingOp α))
    (hmake : (make making).held.capacity < 2 ^ 63)
    (hrun : ∀ report ∈ run (make making).held ops, report.held.capacity < 2 ^ 63) :
    (make making).answer = .ok () ∧ Mirrors (make making).held making.contents ops := by
  rcases make_cases making with ⟨hanswer, h⟩ | hoverflow
  · exact ⟨hanswer, h.mirrors hrun⟩
  · exact absurd hmake (Nat.not_lt.mpr hoverflow.capacity)

/-- Two slots: the items come to stand around the end of the array, and a growth finds them so. -/
theorem mirrors_fifo_of_wrapped :
    Mirrors (Ring.withCapacity 2 : Ring Nat) []
      [.enqueue 1, .enqueue 2, .dequeue, .enqueue 3, .enqueue 4, .items, .dequeue, .extend [5, 6],
        .steps 5, .peek, .size] :=
  (mirrors_fifo (.capacity 2) _ (by decide +kernel) (by decide +kernel)).2

end Ring
end SlotArrays
