import Mathlib.Combinatorics.Enumerative.DoubleCounting
import Mathlib.Data.Finset.Max
import SlotArrays.Proofs.Layout

/-! Which slots are taken.

On their probes the keys flow around the array. A key comes in at its home, goes on past
slots that others hold and stays in one. `homed` counts the keys that come in at a slot and
`crossings` those that go on past it. At every slot what comes in goes on or stays
(`crossings_add_homed`), and at most one key stays; so in an ordered array the crossings at
a slot follow from those at the slot before and from the homes, by a rule that is monotone
(`Ordered.crossings_next`). There is also a slot that no key goes past: a vacant one, or the
one with the key of highest rank (`Ordered.exists_uncrossed`). Starting from there, two
ordered arrays with the same homes have the same crossings throughout, and with them the
same taken slots and the same way in all from homes to slots. Which key is in which slot
may differ. -/
namespace SlotArrays

namespace SlotCircle
variable {size home i j : Nat}

/-- The slot behind `j` is one step further from home, unless it is home itself. -/
theorem ahead_next (hs : size.isPowerOfTwo) (hh : home < size) (hj : j < size) :
    home = wrap size (j + 1) ∧ ahead size home (wrap size (j + 1)) = 0 ∧
        ahead size home j + 1 = size ∨
      home ≠ wrap size (j + 1) ∧ ahead size home (wrap size (j + 1)) = ahead size home j + 1 := by
  have hnext := wrap_add hs hj (n := 1) (by omega)
  have := ahead_cases size home j
  have := ahead_cases size home (wrap size (j + 1))
  split at hnext <;> omega

/-- A probe comes to the slot behind `j` past `j` or from its home, and goes on past it or ends
there. -/
theorem comes_iff (hs : size.isPowerOfTwo) (hh : home < size) (hi : i < size) (hj : j < size) :
    Passes size home i j ∨ home = wrap size (j + 1) ↔
      Passes size home i (wrap size (j + 1)) ∨ i = wrap size (j + 1) := by
  have hend : i = wrap size (j + 1) ↔ ahead size home i = ahead size home (wrap size (j + 1)) :=
    ⟨congrArg _, ahead_inj hh hi (wrap_lt hs _)⟩
  have hlt := ahead_lt hh hi
  unfold Passes
  rcases ahead_next hs hh hj with hhome | hnext <;> omega

/-- A probe that begins behind `j` does not come past `j`. -/
theorem not_passes_of_home (hs : size.isPowerOfTwo) (hh : home < size) (hi : i < size)
    (hj : j < size) (hpass : Passes size home i j) : home ≠ wrap size (j + 1) := by
  have hlt := ahead_lt hh hi
  unfold Passes at hpass
  rcases ahead_next hs hh hj with hhome | hnext <;> omega

/-- A probe passes as many slots as it takes steps. -/
theorem card_passes (hs : size.isPowerOfTwo) (hh : home < size) (hi : i < size) :
    ((Finset.range size).filter (Passes size home i)).card = ahead size home i := by
  have hpassed : (Finset.range size).filter (Passes size home i) =
      (Finset.range (ahead size home i)).image fun n => wrap size (home + n) := by
    ext j
    simp only [Finset.mem_filter, Finset.mem_image, Finset.mem_range]
    constructor
    · rintro ⟨hj, hpass⟩
      exact ⟨ahead size home j, hpass, wrap_ahead hs hh hj⟩
    · rintro ⟨n, hn, rfl⟩
      refine ⟨wrap_lt hs _, ?_⟩
      rwa [Passes, ahead_wrap hs hh (hn.trans (ahead_lt hh hi))]
  rw [hpassed, Finset.card_image_of_injOn, Finset.card_range]
  intro n hn m hm he
  have hlt := ahead_lt hh hi
  rw [Finset.mem_coe, Finset.mem_range] at hn hm
  exact wrap_inj hs hh (hn.trans hlt) (hm.trans hlt) he

end SlotCircle

namespace Keying
open SlotCircle
variable {κ : Type} (K : Keying κ)

/-! ### The flow of the keys -/

/-- The slots that are taken. -/
def takenSlots (keys : Array κ) : Finset Nat := (Finset.range keys.size).filter (K.Taken keys)

/-- The keys with slot `j` for a home. -/
def homed (keys : Array κ) (j : Nat) : Nat :=
  ((K.takenSlots keys).filter fun i => K.home keys.size (K.held keys i) = j).card

/-- The keys whose probes go on past slot `j`. -/
def crossings (keys : Array κ) (j : Nat) : Nat :=
  ((K.takenSlots keys).filter fun i =>
    Passes keys.size (K.home keys.size (K.held keys i)) i j).card

/-- The steps from home to slot, of all keys together. -/
def displacement (keys : Array κ) : Nat :=
  ∑ i ∈ K.takenSlots keys, ahead keys.size (K.home keys.size (K.held keys i)) i

variable {K} {rank : κ → Nat} {keys keys' : Array κ} {i j : Nat}

theorem mem_takenSlots (hK : K.Lawful) : i ∈ K.takenSlots keys ↔ K.Taken keys i := by
  rw [takenSlots, Finset.mem_filter, Finset.mem_range]
  exact ⟨And.right, fun hi => ⟨hi.lt hK, hi⟩⟩

theorem card_or {s : Finset Nat} {p q : Nat → Prop} [DecidablePred p] [DecidablePred q]
    (h : ∀ i ∈ s, p i → ¬ q i) :
    (s.filter p).card + (s.filter q).card = (s.filter fun i => p i ∨ q i).card := by
  rw [Finset.filter_or, Finset.card_union_of_disjoint (Finset.disjoint_filter.mpr h)]

/-- What comes to a slot goes on past it or stays. -/
theorem crossings_add_homed (hK : K.Lawful) (hs : keys.size.isPowerOfTwo) (hj : j < keys.size) :
    K.crossings keys j + K.homed keys (wrap keys.size (j + 1)) =
      K.crossings keys (wrap keys.size (j + 1)) +
        if K.Taken keys (wrap keys.size (j + 1)) then 1 else 0 := by
  have hstays : ((K.takenSlots keys).filter fun i => i = wrap keys.size (j + 1)).card =
      if K.Taken keys (wrap keys.size (j + 1)) then 1 else 0 := by
    rw [Finset.filter_eq', apply_ite Finset.card]
    exact if_congr (mem_takenSlots hK) (Finset.card_singleton _) Finset.card_empty
  have hlt {i : Nat} (hi : i ∈ K.takenSlots keys) : i < keys.size :=
    ((mem_takenSlots hK).mp hi).lt hK
  rw [← hstays, crossings, homed, crossings, card_or, card_or]
  · congr 1
    refine Finset.filter_congr fun i hi => ?_
    exact comes_iff hs (K.home_lt hs _) (hlt hi) hj
  · rintro i _ hpass rfl
    exact not_passes_self _ _ _ hpass
  · intro i hi
    exact not_passes_of_home hs (K.home_lt hs _) (hlt hi) hj

/-- The steps are counted slot by slot: each key goes past as many slots as it takes steps. -/
theorem displacement_eq (hK : K.Lawful) (hs : keys.size.isPowerOfTwo) :
    K.displacement keys = ∑ j ∈ Finset.range keys.size, K.crossings keys j := by
  calc K.displacement keys
    _ = ∑ i ∈ K.takenSlots keys, ((Finset.range keys.size).filter
          (Passes keys.size (K.home keys.size (K.held keys i)) i)).card := by
      refine Finset.sum_congr rfl fun i hi => ?_
      exact (card_passes hs (K.home_lt hs _) (((mem_takenSlots hK).mp hi).lt hK)).symm
    _ = ∑ j ∈ Finset.range keys.size, K.crossings keys j :=
      Finset.sum_card_bipartiteAbove_eq_sum_card_bipartiteBelow _

/-- Distinct keys that are all found in another array have no more homes there than here. -/
theorem homed_le (hK : K.Lawful) (hsize : keys'.size = keys.size)
    (hdistinct : ∀ i j, K.Taken keys i → K.Taken keys j →
      K.same (K.held keys i) (K.held keys j) = true → i = j)
    (hsub : ∀ i, K.Taken keys i →
      ∃ i', K.Taken keys' i' ∧ K.same (K.held keys i) (K.held keys' i') = true) (j : Nat) :
    K.homed keys j ≤ K.homed keys' j := by
  choose! place htaken hsame using hsub
  refine Finset.card_le_card_of_injOn place (fun i hi => ?_) fun i hi i' hi' he => ?_
  · rw [Finset.mem_coe, Finset.mem_filter, mem_takenSlots hK] at hi ⊢
    obtain ⟨hi, hhome⟩ := hi
    refine ⟨htaken i hi, ?_⟩
    rw [hsize, ← home_congr hK (hsame i hi), hhome]
  · rw [Finset.mem_coe, Finset.mem_filter, mem_takenSlots hK] at hi hi'
    refine hdistinct i i' hi.1 hi'.1 (hK.trans (hsame i hi.1) ?_)
    rw [he]
    exact hK.symm (hsame i' hi'.1)

/-! ### Ordered arrays -/

namespace Ordered

theorem crossings_vacant (hK : K.Lawful) (h : K.Ordered rank keys) (hj : j < keys.size)
    (hvacant : ¬ K.Taken keys j) : K.crossings keys j = 0 := by
  rw [crossings, Finset.card_eq_zero, Finset.filter_eq_empty_iff]
  intro i hi hpass
  exact hvacant (h j i hj ((mem_takenSlots hK).mp hi) hpass).1

/-- Of the keys that come to a slot one stays, if any come. -/
theorem crossings_next (hK : K.Lawful) (hs : keys.size.isPowerOfTwo) (h : K.Ordered rank keys)
    (hj : j < keys.size) : K.crossings keys (wrap keys.size (j + 1)) =
      K.crossings keys j + K.homed keys (wrap keys.size (j + 1)) - 1 := by
  have hflow := crossings_add_homed hK hs hj
  by_cases ht : K.Taken keys (wrap keys.size (j + 1))
  · rw [if_pos ht] at hflow
    omega
  · have := h.crossings_vacant hK (wrap_lt hs _) ht
    rw [if_neg ht] at hflow
    omega

theorem taken_next (hK : K.Lawful) (hs : keys.size.isPowerOfTwo) (h : K.Ordered rank keys)
    (hj : j < keys.size) : K.Taken keys (wrap keys.size (j + 1)) ↔
      0 < K.crossings keys j + K.homed keys (wrap keys.size (j + 1)) := by
  have hflow := crossings_add_homed hK hs hj
  by_cases ht : K.Taken keys (wrap keys.size (j + 1))
  · rw [if_pos ht] at hflow
    exact ⟨fun _ => by omega, fun _ => ht⟩
  · have := h.crossings_vacant hK (wrap_lt hs _) ht
    rw [if_neg ht] at hflow
    exact ⟨fun ht' => absurd ht' ht, fun hpos => by omega⟩

/-- Nobody goes past a vacant slot, nor past the key of highest rank. -/
theorem exists_uncrossed (hK : K.Lawful) (hs : keys.size.isPowerOfTwo) (h : K.Ordered rank keys) :
    ∃ j, j < keys.size ∧ K.crossings keys j = 0 := by
  by_cases hfull : ∃ j, j < keys.size ∧ ¬ K.Taken keys j
  · obtain ⟨j, hj, hvacant⟩ := hfull
    exact ⟨j, hj, h.crossings_vacant hK hj hvacant⟩
  · push Not at hfull
    have hzero : 0 < keys.size := Nat.pos_of_isPowerOfTwo hs
    have hsome : (K.takenSlots keys).Nonempty := ⟨0, (mem_takenSlots hK).mpr (hfull 0 hzero)⟩
    obtain ⟨j, hj, hlast⟩ := (K.takenSlots keys).exists_max_image (fun i => rank (K.held keys i)) hsome
    have hj := (mem_takenSlots hK).mp hj
    refine ⟨j, hj.lt hK, ?_⟩
    rw [crossings, Finset.card_eq_zero, Finset.filter_eq_empty_iff]
    intro i hi hpass
    have := (h j i (hj.lt hK) ((mem_takenSlots hK).mp hi) hpass).2
    have := hlast i hi
    omega

/-! ### Two arrays with the same homes -/

variable {rank' : κ → Nat}

/-- From a slot on that nobody goes past in the one array, no more go past any in this one than
in the other. -/
theorem crossings_le (hK : K.Lawful) (hs : keys.size.isPowerOfTwo) (h : K.Ordered rank keys)
    (h' : K.Ordered rank' keys') (hsize : keys'.size = keys.size)
    (hhomed : ∀ j, K.homed keys' j = K.homed keys j) (hj : j < keys.size) :
    K.crossings keys j ≤ K.crossings keys' j := by
  obtain ⟨start, hstart, hzero⟩ := h.exists_uncrossed hK hs
  have hall (n : Nat) : K.crossings keys (wrap keys.size (start + n)) ≤
      K.crossings keys' (wrap keys.size (start + n)) := by
    induction n with
    | zero =>
      rw [Nat.add_zero, wrap_of_lt hs hstart, hzero]
      exact Nat.zero_le _
    | succ n ih =>
      have hnext := h.crossings_next hK hs (wrap_lt hs (start + n))
      have hnext' := h'.crossings_next hK (hsize ▸ hs) (hsize ▸ wrap_lt hs (start + n))
      rw [hsize, hhomed] at hnext'
      rw [wrap_wrap_succ hs] at hnext hnext'
      rw [← Nat.add_assoc, hnext, hnext']
      omega
  have := hall (ahead keys.size start j)
  rwa [wrap_ahead hs hstart hj] at this

theorem crossings_eq (hK : K.Lawful) (hs : keys.size.isPowerOfTwo) (h : K.Ordered rank keys)
    (h' : K.Ordered rank' keys') (hsize : keys'.size = keys.size)
    (hhomed : ∀ j, K.homed keys' j = K.homed keys j) (hj : j < keys.size) :
    K.crossings keys' j = K.crossings keys j :=
  Nat.le_antisymm
    (h'.crossings_le hK (hsize ▸ hs) h hsize.symm (fun j => (hhomed j).symm) (hsize ▸ hj))
    (h.crossings_le hK hs h' hsize hhomed hj)

theorem taken_iff (hK : K.Lawful) (hs : keys.size.isPowerOfTwo) (h : K.Ordered rank keys)
    (h' : K.Ordered rank' keys') (hsize : keys'.size = keys.size)
    (hhomed : ∀ j, K.homed keys' j = K.homed keys j) (i : Nat) :
    K.Taken keys' i ↔ K.Taken keys i := by
  by_cases hi : i < keys.size
  · -- Slot `i` is the next one of the slot before it.
    obtain ⟨j, hj, rfl⟩ : ∃ j, j < keys.size ∧ wrap keys.size (j + 1) = i := by
      refine ⟨wrap keys.size (i + (keys.size - 1)), wrap_lt hs _, ?_⟩
      rw [wrap_wrap_succ hs, wrap_eq_mod hs, show i + (keys.size - 1) + 1 = i + keys.size by omega,
        Nat.add_mod_right, Nat.mod_eq_of_lt hi]
    have hnext' := h'.taken_next hK (hsize ▸ hs) (hsize ▸ hj)
    rw [hsize, hhomed, h.crossings_eq hK hs h' hsize hhomed hj] at hnext'
    exact hnext'.trans (h.taken_next hK hs hj).symm
  · exact ⟨fun ht => absurd (hsize ▸ ht.lt hK) hi, fun ht => absurd (ht.lt hK) hi⟩

theorem displacement_congr (hK : K.Lawful) (hs : keys.size.isPowerOfTwo) (h : K.Ordered rank keys)
    (h' : K.Ordered rank' keys') (hsize : keys'.size = keys.size)
    (hhomed : ∀ j, K.homed keys' j = K.homed keys j) :
    K.displacement keys' = K.displacement keys := by
  rw [displacement_eq hK hs, displacement_eq hK (hsize ▸ hs), hsize]
  refine Finset.sum_congr rfl fun j hj => ?_
  exact h.crossings_eq hK hs h' hsize hhomed (Finset.mem_range.mp hj)

end Ordered
end Keying
end SlotArrays
