import SlotArrays.Proofs.Table.Lookup
import SlotArrays.Proofs.Table.Walk

/-! Removing an entry from a table at rest.

Where the walk ends the keys are in order again, and the table is at rest, for the
same list without the removed key (`Removed`). In a table with a vacant slot it goes
through the cluster behind the removed entry (`walk_cluster`), in a full table it takes
a whole lap and a stretch of the next (`walk_full`), so it ends before its second lap
does (`walk`). -/
namespace SlotArrays.Table
open Keying SlotCircle
variable {κ ν θ : Type} {K : Keying κ} {t t' old : Table K ν} {list : List κ}
  {events : List TableEvent} {rank : κ → Nat} {start steps i : Nat}

/-- Behind slot `i` the next `r` slots are taken, and the one behind them is vacant. -/
structure Cluster (t : Table K ν) (i r : Nat) : Prop where
  taken : ∀ k, k < r → K.Taken t.keys (wrap t.capacity (i + (k + 1)))
  vacant : ¬ K.Taken t.keys (wrap t.capacity (i + (r + 1)))
  lt : r + 1 < t.capacity

/-- Behind a taken slot there is a cluster, unless all slots are taken. -/
theorem exists_cluster (hK : K.Lawful) (hs : t.keys.size.isPowerOfTwo) (hi : K.Taken t.keys i)
    {j : Nat} (hj : j < t.keys.size) (hvacant : ¬ K.Taken t.keys j) : ∃ r, Cluster t i r := by
  have hlt := hi.lt hK
  obtain ⟨stop, hstop, hvacant, hpassed⟩ := exists_first_vacant hs hj hvacant i hlt
  have hfar := ahead_lt hlt hstop
  -- The first vacant slot behind `i` is at least one step away.
  obtain ⟨r, hr⟩ : ∃ r, ahead t.keys.size i stop = r + 1 := by
    refine Nat.exists_eq_succ_of_ne_zero fun h0 => hvacant ?_
    have he : stop = i := ahead_inj hlt hstop hlt (by rw [h0, ahead_self])
    exact he ▸ hi
  rw [hr] at hfar
  refine ⟨r, fun k hk => hpassed _ (wrap_lt hs _) ?_, ?_, hfar⟩
  · rw [Passes, capacity, ahead_wrap hs hlt (by omega)]
    omega
  · rw [← hr, capacity, wrap_ahead hs hlt hstop]
    exact hvacant

/-- The events of a walk that stored `moved` entries again. -/
def rehashEvents (moved : Nat) : List TableEvent := if 0 < moved then [.rehashed moved] else []

/-- The walk tells of the entries that its loop has moved, if there are any. -/
theorem rehashAfterWith_ok {loop : Nat → Nat → Nat → Nat → Action K ν Nat} {moved : Nat}
    (hloop : loop t.capacity (2 * t.capacity) (wrap t.capacity (i + 1)) 0 ⟨t, events⟩ =
      .ok moved ⟨t', events⟩) :
    rehashAfterWith loop i ⟨t, events⟩ = .ok () ⟨t', events ++ rehashEvents moved⟩ := by
  apply Call.bind_eq (Call.view_ok ..)
  apply Call.bind_eq hloop
  rw [rehashEvents]
  by_cases hmoved : 0 < moved
  · rw [if_pos hmoved, if_pos hmoved]
    rfl
  · rw [if_neg hmoved, if_neg hmoved, List.append_nil]
    rfl

variable [Inhabited ν]

/-- What removing the entry in slot `i` makes of a table. -/
structure Removed (t : Table K ν) (list : List κ) (i : Nat) (t' : Table K ν) : Prop where
  rest : t'.AtRest (list.filter fun k => !K.same k (K.held t.keys i))
  entries : t'.entries.Perm (t.entries.filter fun entry => !K.same entry.1 (K.held t.keys i))
  capacity : t'.capacity = t.capacity
  loadFactor : t'.loadFactor = t.loadFactor

theorem Underway.removed (hK : K.Lawful) (h : Underway rank old t start steps)
    (hrest : old.AtRest list) (hranked : K.Arranged rank list old.keys)
    (hstart : K.Taken old.keys start) (hordered : K.Ordered rank t.keys) :
    Removed old list start t := by
  obtain ⟨_, _, hwalking⟩ := h.walking
  have hentries := h.entries.trans (hrest.others_of_taken hK hstart (hK.refl _))
  refine ⟨⟨h.sound, rank, hranked.rank_congr, hranked.sorted.filter _, fun key => ?_,
    hwalking.vacant, hordered⟩, hentries, h.capacity, h.loadFactor⟩
  rw [List.mem_filter, hrest.mem_list hK, List.mem_map]
  constructor
  · intro hmem
    obtain ⟨⟨entry, hmem, rfl⟩, hother⟩ := hmem
    obtain ⟨j, hj, he⟩ := (mem_entries hK h.sound.sizes).mp
      (hentries.mem_iff.mpr (List.mem_filter.mpr ⟨hmem, hother⟩))
    exact ⟨j, hj, congrArg Prod.fst he⟩
  · intro hex
    obtain ⟨j, hj, rfl⟩ := hex
    have hmem := hentries.mem_iff.mp ((mem_entries hK h.sound.sizes).mpr ⟨j, hj, rfl⟩)
    obtain ⟨hmem, hother⟩ := List.mem_filter.mp hmem
    exact ⟨⟨_, hmem, rfl⟩, hother⟩

/-- What was vacant before the walk is vacant. -/
theorem Underway.not_taken (h : Underway rank old t start steps) (hvacant : ¬ K.Taken old.keys i) :
    ¬ K.Taken t.keys i := by
  obtain ⟨_, _, hwalking⟩ := h.walking
  exact fun ht => hvacant ((hwalking.taken i).mp ht).1

namespace AtRest

/-- The walk goes through the cluster behind the removed entry, which leaves the keys in order. -/
theorem walk_cluster (hK : K.Lawful) (h : t.AtRest list) (hranked : K.Arranged rank list t.keys)
    (hi : K.Taken t.keys i) {r : Nat} (hr : Cluster t i r) :
    ∃ t', Resettled (t.cleared i) (wrap t.capacity (i + 1)) (t.span i 1 r) t'
        (wrap t.capacity (i + (r + 1))) ∧
      Underway rank t t' i r ∧ K.Ordered rank t'.keys := by
  have hs : t.capacity.isPowerOfTwo := h.sound.isPowerOfTwo
  have hlt : i < t.capacity := hi.lt hK
  have hbegin := Underway.begins hK h.sound hranked.ordered hranked.vacant hi
  obtain ⟨t', hwalk, hunder⟩ := hbegin.lap hK hranked.rank_congr r hlt
    (by rw [Nat.zero_add]; exact (Nat.lt_succ_self r).trans hr.lt)
    (fun k hk => by rw [Nat.zero_add, Nat.add_comm 1]; exact hr.taken k hk)
  rw [Nat.zero_add, Nat.add_comm 1 r] at hwalk
  rw [Nat.zero_add] at hunder
  refine ⟨t', hwalk, hunder, ?_⟩
  obtain ⟨hole, bound, hwalking⟩ := hunder.walking
  have hsize : t'.keys.size = t.capacity := hunder.capacity
  refine hwalking.ends hK hunder.sound.isPowerOfTwo (by rwa [hsize]) fun k hk ht => ?_
  have hk' : k < t.capacity := hsize ▸ ht.lt hK
  rw [hsize] at hk
  have hstop : k = wrap t.capacity (i + (r + 1)) := by
    rw [← hk, wrap_ahead hs hlt hk']
  exact hunder.not_taken hr.vacant (hstop ▸ ht)

/-- In a full table the walk goes round once and on to the slot that is vacant by then. -/
theorem walk_full (hK : K.Lawful) (h : t.AtRest list)
    (hfull : ∀ j, j < t.capacity → K.Taken t.keys j) (hlt : i < t.capacity) :
    ∃ t' gap, Resettled (t.cleared i) (wrap t.capacity (i + 1))
        (t.span i 1 (t.capacity - 1) ++ t'.span i 0 (ahead t.capacity i gap)) t' gap ∧
      gap < t'.capacity ∧ (∀ j, K.Taken t'.keys j ↔ j < t'.capacity ∧ j ≠ gap) ∧
      Removed t list i t' := by
  obtain ⟨rank, hranked⟩ := h.arranged
  have hs : t.capacity.isPowerOfTwo := h.sound.isPowerOfTwo
  have hi := hfull i hlt
  have hbegin := Underway.begins hK h.sound hranked.ordered hranked.vacant hi
  obtain ⟨t', hwalk, hunder⟩ := hbegin.lap hK hranked.rank_congr (t.capacity - 1) hlt (by omega)
    (fun k _ => hfull _ (wrap_lt hs _))
  obtain ⟨gap, bound, hwalking⟩ := hunder.walking
  have hsize : t'.capacity = t.capacity := hunder.capacity
  have hgap : gap < t.capacity := hsize ▸ hwalking.hole_lt hK
  have hordered : K.Ordered rank t'.keys := by
    refine hwalking.ends hK hunder.sound.isPowerOfTwo (show i < t'.capacity by rwa [hsize])
      fun k hk ht => ?_
    have := ahead_lt (show i < t'.capacity by rwa [hsize]) (ht.lt hK)
    have hk : ahead t'.capacity i k = 0 + (t.capacity - 1) + 1 := hk
    omega
  have htaken (j : Nat) : K.Taken t'.keys j ↔ j < t'.capacity ∧ j ≠ gap := by
    rw [hwalking.taken, hsize]
    exact ⟨fun hj => ⟨hj.1.lt hK, hj.2⟩, fun hj => ⟨hfull j hj.1, hj.2⟩⟩
  have hagain : ∀ k, k < ahead t.capacity i gap →
      K.Taken t'.keys (wrap t'.capacity (i + (0 + k))) := by
    -- In the order of the walk these slots come before the gap.
    intro k hk
    rw [htaken, hsize, Nat.zero_add]
    exact ⟨wrap_lt hs _, wrap_ne hs hlt hgap hk⟩
  have hmore := resettled_ordered hK hranked.rank_congr hunder.sound hordered i 0 _ hagain
  have hround : wrap t.capacity (i + (0 + 1 + (t.capacity - 1))) = wrap t.capacity (i + 0) := by
    rw [wrap_eq_mod hs, wrap_eq_mod hs, show 0 + 1 + (t.capacity - 1) = t.capacity by omega,
      Nat.add_mod_right, Nat.add_zero]
  rw [hsize, Nat.zero_add, wrap_ahead hs hlt hgap, ← hround] at hmore
  exact ⟨t', gap, hwalk.append hmore, by rwa [hsize], htaken,
    hunder.removed hK h hranked hi hordered⟩

/-- The walk comes to a vacant slot before the end of its second lap. -/
theorem walk (hK : K.Lawful) (h : t.AtRest list) (hi : K.Taken t.keys i) :
    ∃ t' log stop, Resettled (t.cleared i) (wrap t.capacity (i + 1)) log t' stop ∧
      log.length < 2 * t.capacity ∧ stop < t'.capacity ∧ ¬ K.Taken t'.keys stop ∧
      Removed t list i t' := by
  by_cases hfull : ∃ j, j < t.keys.size ∧ ¬ K.Taken t.keys j
  · obtain ⟨j, hj, hvacant⟩ := hfull
    obtain ⟨rank, hranked⟩ := h.arranged
    obtain ⟨r, hr⟩ := exists_cluster hK h.sound.isPowerOfTwo hi hj hvacant
    obtain ⟨t', hwalk, hunder, hordered⟩ := h.walk_cluster hK hranked hi hr
    have hstop : wrap t.capacity (i + (r + 1)) < t'.capacity := by
      rw [hunder.capacity]
      exact wrap_lt h.sound.isPowerOfTwo _
    refine ⟨t', _, _, hwalk, ?_, hstop, hunder.not_taken hr.vacant,
      hunder.removed hK h hranked hi hordered⟩
    have := hr.lt
    rw [length_span]
    omega
  · push Not at hfull
    obtain ⟨t', gap, hwalk, hgap, htaken, hremoved⟩ := h.walk_full hK hfull (hi.lt hK)
    refine ⟨t', _, gap, hwalk, ?_, hgap, fun ht => ((htaken gap).mp ht).2 rfl, hremoved⟩
    have := ahead_lt (hi.lt hK) (show gap < t.capacity by rwa [hremoved.capacity] at hgap)
    rw [List.length_append, length_span, length_span]
    unfold Table.capacity at *
    omega

end AtRest

/-! ### The whole call -/

theorem rehashAfter_ok {log : List (κ × ν)} {stop : Nat}
    (h : Rehashes t.capacity ⟨t.cleared i, events⟩ (wrap t.capacity (i + 1)) log ⟨t', events⟩ stop)
    (hlog : log.length < 2 * t.capacity) (hstop : stop < t'.capacity)
    (hvacant : ¬ K.Taken t'.keys stop) :
    rehashAfter i ⟨t.cleared i, events⟩ =
      .ok () ⟨t', events ++ rehashEvents log.length⟩ := by
  apply rehashAfterWith_ok
  rw [capacity_cleared, ← Nat.zero_add log.length]
  exact h.rehashWith_eq (keyAt_ok hstop) (not_taken.mp hvacant) hlog 0

variable {F : Form K θ} {q : θ} {rehash : Nat → Action K ν Unit}

theorem eraseWith_missing (hfind : find F q ⟨t, events⟩ = .ok none ⟨t, events⟩) :
    eraseWith rehash F q ⟨t, events⟩ = .ok false ⟨t, events⟩ :=
  Call.bind_eq hfind rfl

theorem eraseWith_found {s : Traced (Table K ν) TableEvent} (hK : K.Lawful) (h : t.Sound)
    (hi : K.Taken t.keys i) (hfind : find F q ⟨t, events⟩ = .ok (some i) ⟨t, events⟩)
    (hwalk : rehash i ⟨t.cleared i, events⟩ = .ok () s) :
    eraseWith rehash F q ⟨t, events⟩ = .ok true s := by
  apply Call.bind_eq hfind
  apply Call.bind_eq (takeSlot_ok hK h hi)
  exact Call.bind_eq hwalk rfl

namespace AtRest

/-- Removing the entry from a slot comes to an end. -/
theorem rehashAfter_ok (hK : K.Lawful) (h : t.AtRest list) (hi : K.Taken t.keys i)
    (events : List TableEvent) :
    ∃ t' moved, rehashAfter i ⟨t.cleared i, events⟩ = .ok () ⟨t', events ++ rehashEvents moved⟩ ∧
      Removed t list i t' := by
  obtain ⟨t', log, stop, hwalk, hlog, hstop, hvacant, hremoved⟩ := h.walk hK hi
  have hrehashes := hwalk.rehashes hK (capacity_cleared t i) events
  exact ⟨t', log.length, Table.rehashAfter_ok hrehashes hlog hstop hvacant, hremoved⟩

end AtRest
end SlotArrays.Table
