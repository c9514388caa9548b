import SlotArrays.Keying.Standard
import SlotArrays.Proofs.Table.Runs

/-! Removing an entry from a full table.

There is no vacant slot to end the walk but the one that the removal has made, and the
walk itself moves that one. `Freed` says how it ends all the same: the lap that takes
out every other entry once leaves one slot vacant, and the walk goes on to that slot,
past entries that it has seen before. -/
namespace SlotArrays.Table
open Keying SlotCircle
variable {κ ν θ : Type} {K : Keying κ}

/-! ### Slots in the order of the walk -/

section Spans
variable [Inhabited ν] {t : Table K ν} {start n : Nat}

theorem slots_eq (h : t.Sound) : t.slots = (List.range t.capacity).map t.slot := by
  apply List.ext_getElem
  · rw [length_slots h.sizes, List.length_map, List.length_range, capacity]
  · intro i hi hi'
    rw [getElem_slots hi, List.getElem_map, List.getElem_range]

/-- A lap sees every slot once. -/
theorem span_perm (h : t.Sound) (hstart : start < t.capacity) :
    (t.span start 0 t.capacity).Perm t.slots := by
  have hlap := (course_perm h.isPowerOfTwo hstart).map t.slot
  rw [slots_eq h, span, ← List.range_eq_range']
  rwa [course, List.map_map] at hlap

/-- In a full table the slots behind one hold the other entries. -/
theorem span_perm_others (hK : K.Lawful) (h : t.Sound)
    (hfull : ∀ i, i < t.capacity → K.Taken t.keys i) (hstart : start < t.capacity) :
    (t.span start 1 (t.capacity - 1)).Perm (t.others start) := by
  have hs : t.capacity.isPowerOfTwo := h.isPowerOfTwo
  have hall : t.slots.filter (stored K) = t.slots := by
    rw [List.filter_eq_self, slots_eq h]
    intro entry hmem
    obtain ⟨i, hi, rfl⟩ := List.mem_map.mp hmem
    exact stored_slot.mpr (hfull i (List.mem_range.mp hi))
  have hlap := span_perm h hstart
  rw [← hall, ← entries_eq, show t.capacity = t.capacity - 1 + 1 by omega, span_succ, Nat.add_zero,
    wrap_of_lt hs hstart] at hlap
  exact (hlap.trans (entries_taken hK h.sizes (hfull start hstart))).cons_inv

/-- Taken slots hold entries, each of them once. -/
theorem span_sublist (h : t.Sound) (hstart : start < t.capacity) (hn : n ≤ t.capacity)
    (htaken : ∀ k, k < n → K.Taken t.keys (wrap t.capacity (start + k))) :
    ∃ list, (t.span start 0 n).Sublist list ∧ list.Perm t.entries := by
  have hself : (t.span start 0 n).filter (stored K) = t.span start 0 n := by
    rw [List.filter_eq_self, span]
    intro entry hmem
    obtain ⟨k, hk, rfl⟩ := List.mem_map.mp hmem
    exact stored_slot.mpr (htaken k (by simpa using hk))
  have hpart : (t.span start 0 n).Sublist (t.span start 0 t.capacity) := by
    apply List.Sublist.map _
    rw [← List.range_eq_range', ← List.range_eq_range']
    exact List.range_sublist.mpr hn
  refine ⟨(t.span start 0 t.capacity).filter (stored K), ?_, (span_perm h hstart).filter _⟩
  rw [← hself]
  exact hpart.filter _

end Spans

/-- Among entries with different keys each key is found once. -/
theorem countP_same (hK : K.Lawful) {entries : List (κ × ν)}
    (hdistinct : entries.Pairwise fun a b => K.same a.1 b.1 = false) {entry : κ × ν}
    (h : entry ∈ entries) : (entries.countP fun e => K.same e.1 entry.1) = 1 := by
  obtain ⟨before, behind, rfl⟩ := List.append_of_mem h
  rw [List.pairwise_append, List.pairwise_cons] at hdistinct
  obtain ⟨_, ⟨hbehind, _⟩, hbefore⟩ := hdistinct
  have h₁ : (before.countP fun e => K.same e.1 entry.1) = 0 := by
    rw [List.countP_eq_zero]
    intro e he
    rw [hbefore e he entry List.mem_cons_self]
    exact Bool.false_ne_true
  have h₂ : (behind.countP fun e => K.same e.1 entry.1) = 0 := by
    rw [List.countP_eq_zero]
    intro e he
    rw [hK.same_comm, hbehind e he]
    exact Bool.false_ne_true
  rw [List.countP_append, List.countP_cons, h₁, h₂, if_pos (hK.refl _)]

/-! ### The removal -/

section Removal
variable [Inhabited ν] {t : Table K ν} {list : List κ} {F : Form K θ} {q : θ} {i : Nat}

/-- How the removal from slot `i` of a full table ends: with the entries of `log` stored again,
in turn, and with slot `gap` vacant. -/
structure Freed (t : Table K ν) (i : Nat) (t' : Table K ν) (gap : Nat) (log : List (κ × ν)) :
    Prop where
  walk : Rehashes t.capacity ⟨t.cleared i, []⟩ (wrap t.capacity (i + 1)) log ⟨t', []⟩ gap
  moved : log.length = (t.capacity - 1) + (gap + t.capacity - i) % t.capacity
  once_or_twice : ∀ entry ∈ t'.entries, (log.countP fun e => K.same e.1 entry.1) = 1 ∨
    (log.countP fun e => K.same e.1 entry.1) = 2
  capacity : t'.capacity = t.capacity
  gap_lt : gap < t'.capacity
  /-- One slot is vacant. -/
  taken : ∀ j, j < t'.capacity → (K.Taken t'.keys j ↔ j ≠ gap)
  /-- No entry has the vacant slot on its way. -/
  unpassed : ∀ j, K.Taken t'.keys j →
    ¬ Passes t'.capacity (K.home t'.capacity (K.held t'.keys j)) j gap
  entries : t'.entries.Perm (t.entries.filter fun entry => !K.same entry.1 (K.held t.keys i))

theorem AtRest.freed (hK : K.Lawful) (h : t.AtRest list)
    (hfull : ∀ j, j < t.capacity → K.Taken t.keys j) (hi : i < t.capacity) :
    ∃ t' gap log, Freed t i t' gap log := by
  obtain ⟨t', gap, hwalk, hgap, htaken, hremoved⟩ := h.walk_full hK hfull hi
  have hs : t.capacity.isPowerOfTwo := h.sound.isPowerOfTwo
  have hsize := hremoved.capacity
  have hgap' : gap < t.capacity := by rwa [hsize] at hgap
  have hahead := ahead_lt hi hgap'
  have hrest := hremoved.rest
  -- The first lap took out every entry that is left, the second one some of them again.
  have hlap : (t.span i 1 (t.capacity - 1)).Perm t'.entries :=
    (span_perm_others hK h.sound hfull hi).trans
      ((h.others_of_taken hK (hfull i hi) (hK.refl _)).trans hremoved.entries.symm)
  have hagain : ∀ k, k < ahead t.capacity i gap →
      K.Taken t'.keys (wrap t'.capacity (i + k)) := by
    intro k hk
    rw [htaken, hsize]
    exact ⟨wrap_lt hs _, wrap_ne hs hi hgap' hk⟩
  obtain ⟨again, hsub, hperm⟩ := span_sublist hrest.sound (by rwa [hsize])
    (by rw [hsize]; exact hahead.le) hagain
  refine ⟨t', gap, _, hwalk.rehashes hK (capacity_cleared t i) [], ?_,
    fun entry hmem => ?_, hsize, hgap, fun j hj => ?_, fun j hj hpass => ?_, hremoved.entries⟩
  · rw [ahead_eq_mod hi hgap']
    simp [span]
  · have hdistinct := hrest.entries_pairwise hK
    have hone := countP_same hK hdistinct hmem
    have hfirst := hlap.countP_eq fun e => K.same e.1 entry.1
    have hsecond := hsub.countP_le (p := fun e => K.same e.1 entry.1)
    rw [hperm.countP_eq] at hsecond
    rw [List.countP_append]
    omega
  · rw [htaken]
    exact ⟨fun hj' => hj'.2, fun hne => ⟨hj, hne⟩⟩
  · obtain ⟨_, hranked⟩ := hrest.arranged
    have := (hranked.ordered gap j hgap hj hpass).1
    exact ((htaken gap).mp this).2 rfl

/-- **Removal from a full table comes to an end and leaves one slot vacant**, on nobody's way;
every other entry has been stored again once or twice. -/
theorem erase_full (hK : K.Lawful) (hF : F.Lawful) {making : TableMaking} {t₀ : Table K ν}
    (hmake : make making = .ok t₀) (requests : List (Request K ν))
    (hfull : ∀ j, j < (t₀.afterAll requests).capacity → K.Taken (t₀.afterAll requests).keys j)
    (hi : i < (t₀.afterAll requests).capacity)
    (hq : F.same (F.view (K.held (t₀.afterAll requests).keys i)) q = true) :
    ∃ t' gap log, Freed (t₀.afterAll requests) i t' gap log ∧
      step F (t₀.afterAll requests) (.erase q) =
        ⟨.ok (.truth true), t', if 0 < log.length then [.rehashed log.length] else []⟩ := by
  have h := (AtRest.make hK hmake).run hK requests
  generalize t₀.afterAll requests = t at *
  obtain ⟨t', gap, log, hfreed⟩ := h.freed hK hfull hi
  have hlog : log.length < 2 * t.capacity := by
    have := hfreed.moved
    have := Nat.mod_lt (gap + t.capacity - i) (show 0 < t.capacity by omega)
    omega
  have hvacant : ¬ K.Taken t'.keys gap := fun ht => (hfreed.taken gap hfreed.gap_lt).mp ht rfl
  have hwalk := rehashAfter_ok hfreed.walk hlog hfreed.gap_lt hvacant
  have hfind := h.find_some hK hF (hfull i hi) hq []
  have herase := eraseWith_found hK h.sound (hfull i hi) hfind hwalk
  exact ⟨t', gap, log, hfreed, step_erase herase⟩

end Removal

/-- Two slots, taken by keys that hash alike. -/
def crowded : Table (plain (0 : Int32) fun _ => 0) Int32 :=
  (vacant 2 ⟨.one, by decide⟩).afterAll
    [.plain (plain_lawful _ _) (.insert 1 10), .plain (plain_lawful _ _) (.insert 2 20)]

/-- The key that was stored first is removed, and the other one moves to its slot. -/
theorem erase_full_of_crowded :
    (∀ j, j < crowded.capacity → (plain 0 fun _ => 0).Taken crowded.keys j) ∧
    ∃ t' gap log, Freed crowded 0 t' gap log ∧
      step (self _) crowded (.erase 1) =
        ⟨.ok (.truth true), t', if 0 < log.length then [.rehashed log.length] else []⟩ := by
  have hfull : ∀ j, j < crowded.capacity → (plain 0 fun _ => 0).Taken crowded.keys j := by
    decide +kernel
  refine ⟨hfull, ?_⟩
  have hmake : make (K := plain (0 : Int32) fun _ => 0) (ν := Int32)
      (.capacityAndLoadFactor 2 .one) = .ok (vacant 2 ⟨.one, by decide⟩) := rfl
  exact erase_full (plain_lawful _ _) (plain_lawful _ _).self hmake _ hfull (by decide +kernel)
    (by decide +kernel)

end SlotArrays.Table
