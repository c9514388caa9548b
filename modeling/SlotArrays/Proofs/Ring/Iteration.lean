import SlotArrays.Proofs.Ring.Invariant

/-! What a walk over a ring yields.

A cursor in front of the first item answers the items of the ring in order and then nothing,
as often as it is asked (`answers`). After any number of steps it says how many items are
left, and so many are what it answers from there on (`Yields`). That a ring holds its items
in consecutive places, wherever these begin, is all it takes. -/
namespace SlotArrays
variable {α : Type}

namespace Cursor

/-- The answers of `n` steps over the items: each item once, and nothing behind the last one. -/
def answers (items : List α) (n : Nat) : List (Option α) :=
  (items.take n).map some ++ List.replicate (n - items.length) none

theorem answers_nil (n : Nat) : answers ([] : List α) (n + 1) = none :: answers [] n := by
  simp [answers, List.replicate_succ]

theorem answers_cons (item : α) (items : List α) (n : Nat) :
    answers (item :: items) (n + 1) = some item :: answers items n := by
  simp [answers]

/-- Reading place by place answers the items from the first of these places on. -/
theorem map_places (items : List α) (i n : Nat) :
    (List.range' i n).map (fun place => items[place]?) = answers (items.drop i) n := by
  induction n generalizing i with
  | zero => simp [answers]
  | succ n ih =>
    rw [List.range'_succ, List.map_cons, ih]
    rcases Nat.lt_or_ge i items.length with hi | hi
    · rw [List.drop_eq_getElem_cons hi, answers_cons, List.getElem?_eq_getElem hi]
    · rw [List.drop_of_length_le hi, List.drop_of_length_le (by omega), answers_nil,
        List.getElem?_eq_none hi]

/-- What a cursor over the items does that is asked `n` times, and what can be asked of it then. -/
structure Yields (start : Cursor α) (items : List α) (n : Nat) (reached : Cursor α) : Prop where
  nexts : start.nexts n = .ok (answers items n, reached)
  left : reached.left = .ok (items.length - min n items.length)
  sizeHint : reached.sizeHint =
    .ok (items.length - min n items.length, some (items.length - min n items.length))
  /-- What is left is what is still answered. -/
  rest : ∀ m, ∃ behind, reached.nexts m = .ok (answers (items.drop n) m, behind)

theorem yields {r : Ring α} {items : List α} (h : r.Holds items) (n : Nat) :
    Yields r.cursor items n (reached r items n) := by
  have hleft : items.length - min n items.length = items.length - n := by omega
  refine ⟨?_, ?_, ?_, fun m => ?_⟩
  · rw [← reached_zero r items, nexts_reached h, map_places, List.drop_zero, Nat.zero_add]
  · rw [hleft]
    exact left_reached h n
  · rw [hleft]
    exact sizeHint_reached h n
  · rw [nexts_reached h, map_places]
    exact ⟨_, rfl⟩

end Cursor

namespace Ring
variable {r : Ring α} {items items' : List α}

/-- A ring holds one list only. -/
theorem Holds.unique (h : r.Holds items) (h' : r.Holds items') : items = items' :=
  Except.ok.inj ((Cursor.items_eq h).symm.trans (Cursor.items_eq h'))

/-- What a run makes of the items, while the ring can grow. -/
theorem Holds.after_next (h : r.Holds items) {ops : List (RingOp α)}
    (hsize : ∀ report ∈ run r ops, report.held.capacity < 2 ^ 63) :
    (after r ops).Holds (ops.foldl Fifo.next items) := by
  induction ops generalizing r items with
  | nil => exact h
  | cons op ops ih =>
    have hfirst : (step r op).held.capacity < 2 ^ 63 := hsize _ List.mem_cons_self
    rcases h.step_cases op with hanswered | hoverflow
    · exact ih hanswered.holds fun report hmem => hsize _ (List.mem_cons_of_mem _ hmem)
    · exact absurd hfirst (Nat.not_lt.mpr hoverflow.capacity)

/-- **A cursor yields each item of a ring once, in order, and knows at every step how many are
left,** in every ring that a run comes to. The items are those that the run makes of a list, as
long as the capacity stays below half of the range of sizes. -/
theorem cursor_after (making : RingMaking α) (ops : List (RingOp α)) :
    ∃ items, (after (make making).held ops).Holds items ∧
      ((make making).held.capacity < 2 ^ 63 →
        (∀ report ∈ run (make making).held ops, report.held.capacity < 2 ^ 63) →
        items = ops.foldl Fifo.next making.contents) ∧
      ∀ n, ∃ reached, Cursor.Yields (after (make making).held ops).cursor items n reached := by
  obtain ⟨_, hmade⟩ := make_holds making
  obtain ⟨items, h⟩ := hmade.after_holds ops
  refine ⟨items, h, fun hmake hrun => ?_, fun n => ⟨_, Cursor.yields h n⟩⟩
  rcases make_cases making with ⟨_, hcontents⟩ | hoverflow
  · exact h.unique (hcontents.after_next hrun)
  · exact absurd hmake (Nat.not_lt.mpr hoverflow.capacity)

/-- Two items around the end of the array, and three steps over them. -/
theorem cursor_after_of_wrapped :
    ∃ reached, Cursor.Yields (after (withCapacity 2 : Ring Nat)
      [.enqueue 1, .enqueue 2, .dequeue, .enqueue 3]).cursor [2, 3] 3 reached := by
  obtain ⟨items, _, hitems, hyields⟩ :=
    cursor_after (.capacity 2) [.enqueue 1, .enqueue 2, .dequeue, .enqueue 3]
  obtain rfl : items = [2, 3] := hitems (by decide +kernel) (by decide +kernel)
  exact hyields 3

end Ring
end SlotArrays
