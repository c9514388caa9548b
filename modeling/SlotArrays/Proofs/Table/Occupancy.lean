import SlotArrays.Keying.Standard
import SlotArrays.Proofs.Occupancy
import SlotArrays.Proofs.Table.Runs

/-! What the vacant slots of a table tell.

Runs may store and remove the same keys in different orders, and may grow at different
times. Where the keys lie then differs from run to run. But the keys of a table at rest are
ordered, and equal keys have the same home; so two tables of one capacity that hold equal
keys have the same slots taken, and their keys are the same way in all from home
(`occupancy_run`). -/
namespace SlotArrays.Table
open Keying
variable {κ ν ν' : Type} {K : Keying κ} [Inhabited ν] [Inhabited ν'] {t : Table K ν}
  {t' : Table K ν'} {list list' : List κ}

/-- Keys that all have an equal one in another table have no more homes there than here. -/
theorem AtRest.homed_le (hK : K.Lawful) (h : t.AtRest list) (h' : t'.AtRest list')
    (hcapacity : t'.capacity = t.capacity)
    (hkeys : ∀ entry ∈ t.entries, ∃ entry' ∈ t'.entries, K.same entry.1 entry'.1 = true) (j : Nat) :
    K.homed t.keys j ≤ K.homed t'.keys j := by
  refine Keying.homed_le hK hcapacity (h.injective hK) (fun i hi => ?_) j
  obtain ⟨entry', hmem', hsame⟩ := hkeys _ ((mem_entries hK h.sound.sizes).mpr ⟨i, hi, rfl⟩)
  obtain ⟨i', hi', rfl⟩ := (mem_entries hK h'.sound.sizes).mp hmem'
  exact ⟨i', hi', hsame⟩

theorem AtRest.occupancy (hK : K.Lawful) (h : t.AtRest list) (h' : t'.AtRest list')
    (hcapacity : t'.capacity = t.capacity)
    (hkeys : ∀ entry ∈ t.entries, ∃ entry' ∈ t'.entries, K.same entry.1 entry'.1 = true)
    (hkeys' : ∀ entry' ∈ t'.entries, ∃ entry ∈ t.entries, K.same entry'.1 entry.1 = true) :
    (∀ i, K.Taken t'.keys i ↔ K.Taken t.keys i) ∧
      K.displacement t'.keys = K.displacement t.keys := by
  obtain ⟨_, hranked⟩ := h.arranged
  obtain ⟨_, hranked'⟩ := h'.arranged
  have hs := h.sound.isPowerOfTwo
  have hhomed (j : Nat) : K.homed t'.keys j = K.homed t.keys j :=
    Nat.le_antisymm (h'.homed_le hK h hcapacity.symm hkeys' j) (h.homed_le hK h' hcapacity hkeys j)
  exact ⟨hranked.ordered.taken_iff hK hs hranked'.ordered hcapacity hhomed,
    hranked.ordered.displacement_congr hK hs hranked'.ordered hcapacity hhomed⟩

/-- **Which slots are taken, and how far the keys are from home in all, does not depend on the
history**, but on the keys that are stored and on the capacity. -/
theorem occupancy_run (hK : K.Lawful) {making making' : TableMaking}
    (hmake : make making = .ok t) (hmake' : make making' = .ok t')
    (requests : List (Request K ν)) (requests' : List (Request K ν'))
    (hcapacity : (t'.afterAll requests').capacity = (t.afterAll requests).capacity)
    (hkeys : ∀ entry ∈ (t.afterAll requests).entries,
      ∃ entry' ∈ (t'.afterAll requests').entries, K.same entry.1 entry'.1 = true)
    (hkeys' : ∀ entry' ∈ (t'.afterAll requests').entries,
      ∃ entry ∈ (t.afterAll requests).entries, K.same entry'.1 entry.1 = true) :
    (∀ i, K.Taken (t'.afterAll requests').keys i ↔ K.Taken (t.afterAll requests).keys i) ∧
      K.displacement (t'.afterAll requests').keys = K.displacement (t.afterAll requests).keys :=
  ((AtRest.make hK hmake).run hK requests).occupancy hK ((AtRest.make hK hmake').run hK requests')
    hcapacity hkeys hkeys'

/-- Keys that are their own hashes, stored in four slots. -/
def direct : Table (plain (0 : Int32) id) Int32 :=
  (withCapacity 4).afterAll
    [.plain (plain_lawful _ _) (.insert 1 10), .plain (plain_lawful _ _) (.insert 5 50),
      .plain (plain_lawful _ _) (.insert 2 20)]

/-- The same keys, stored in another order, with a growth and a removal in between. -/
def roundabout : Table (plain (0 : Int32) id) String :=
  (withCapacity 2).afterAll
    [.plain (plain_lawful _ _) (.insert 2 "b"), .plain (plain_lawful _ _) (.insert 5 "e"),
      .plain (plain_lawful _ _) (.insert 9 "i"), .plain (plain_lawful _ _) (.erase 9),
      .plain (plain_lawful _ _) (.insert 1 "a")]

/-- The keys are not in the same slots, but the same slots are taken. -/
theorem occupancy_run_of_roundabout :
    roundabout.keys ≠ direct.keys ∧
    (∀ i, (plain 0 id).Taken roundabout.keys i ↔ (plain 0 id).Taken direct.keys i) ∧
      (plain 0 id).displacement roundabout.keys = (plain 0 id).displacement direct.keys := by
  refine ⟨by decide +kernel, ?_⟩
  have hmake : make (K := plain (0 : Int32) id) (ν := Int32) (.capacity 4) =
      .ok (withCapacity 4) := rfl
  have hmake' : make (K := plain (0 : Int32) id) (ν := String) (.capacity 2) =
      .ok (withCapacity 2) := rfl
  have hkeys : (direct.entries.all fun entry => roundabout.entries.any fun entry' =>
      (plain 0 id).same entry.1 entry'.1) = true := by decide +kernel
  have hkeys' : (roundabout.entries.all fun entry' => direct.entries.any fun entry =>
      (plain 0 id).same entry'.1 entry.1) = true := by decide +kernel
  simp only [List.all_eq_true, List.any_eq_true] at hkeys hkeys'
  exact occupancy_run (plain_lawful _ _) hmake hmake' _ _ (by decide +kernel) hkeys hkeys'

end SlotArrays.Table
