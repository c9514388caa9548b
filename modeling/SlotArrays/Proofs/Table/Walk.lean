import SlotArrays.Proofs.Hole
import SlotArrays.Proofs.Table.Growth

/-! The walk behind a removal.

`Rehashes` is a stretch of the walk: the entries that it takes out, in turn, each
stored again before the next. Taking out an entry brings the count below the
threshold and leaves a vacant slot, so storing it again is no more than to put it there
(`Settled`) and comes down to a move from one slot to another (`shifted`), on the keys a
step of `Walking`. `Resettled` is a stretch in these terms, on tables alone; it is a
stretch of any walk whose inner call `Settles`.

In a table with a vacant slot the walk ends at the first one behind the removed
entry. In a full table it sees every other slot once, which leaves the keys ordered
and one slot vacant; if this is not where the lap began, the walk goes on to it and
changes nothing more. -/
namespace SlotArrays.Table
open Keying SlotCircle List
variable {κ ν : Type} {K : Keying κ} [Inhabited ν]

/-! ### Stretches of the walk -/

/-- From slot `i` on the entries of the list are taken out and stored again, one after the
other, up to slot `i'`. -/
inductive Rehashes (slots : Nat) : Traced (Table K ν) TableEvent → Nat → List (κ × ν) →
    Traced (Table K ν) TableEvent → Nat → Prop
  | nil (s : Traced (Table K ν) TableEvent) (i : Nat) : Rehashes slots s i [] s i
  | cons {s s₁ s₂ s' : Traced (Table K ν) TableEvent} {i i' : Nat} {entry : κ × ν}
      {rest : List (κ × ν)} (key : keyAt i s = .ok entry.1 s) (live : K.vacates entry.1 = false)
      (taken : takeSlot i s = .ok entry s₁) (again : insert entry.1 entry.2 s₁ = .ok () s₂)
      (more : Rehashes slots s₂ (wrap slots (i + 1)) rest s' i') :
      Rehashes slots s i (entry :: rest) s' i'

/-- A stretch of the walk, from slot `i` to slot `i'`, in which each entry that is taken out goes
back into a vacant slot. The next slot is reckoned in the table as it is by then. -/
inductive Resettled : Table K ν → Nat → List (κ × ν) → Table K ν → Nat → Prop
  | nil (t : Table K ν) (i : Nat) : Resettled t i [] t i
  | cons {t t₁ t' : Table K ν} {i i' : Nat} {rest : List (κ × ν)} (sound : t.Sound)
      (taken : K.Taken t.keys i) (again : Settled (t.cleared i) (t.slot i).1 (t.slot i).2 t₁)
      (more : Resettled t₁ (wrap t₁.capacity (i + 1)) rest t' i') :
      Resettled t i (t.slot i :: rest) t' i'

variable {t t₁ t' : Table K ν} {list : List κ} {events : List TableEvent} {i i₁ i' j : Nat}
  {slots : Nat} {log more : List (κ × ν)}

/-- The loop goes through a stretch that leads to a vacant slot, and counts its entries. -/
theorem Rehashes.rehashWith_eq {s s' : Traced (Table K ν) TableEvent}
    (h : Rehashes slots s i log s' i') {key : κ} (hkey : keyAt i' s' = .ok key s')
    (hvacant : K.vacates key = true) {steps : Nat} (hsteps : log.length < steps) (moved : Nat) :
    rehashWith insert slots steps i moved s = .ok (moved + log.length) s' := by
  induction h generalizing steps moved with
  | nil s i =>
    obtain ⟨steps, rfl⟩ := Nat.exists_eq_add_of_lt hsteps
    apply Call.bind_eq hkey
    rw [if_pos hvacant]
    rfl
  | cons here live taken again _ ih =>
    obtain ⟨steps, rfl⟩ := Nat.exists_eq_add_of_lt hsteps
    apply Call.bind_eq here
    rw [if_neg (by simp [live])]
    apply Call.bind_eq taken
    apply Call.bind_eq again
    rw [ih hkey (by rw [List.length_cons]; omega), List.length_cons, Nat.add_assoc, Nat.add_comm 1]

namespace Resettled

theorem append (h : Resettled t i log t₁ i₁) (h' : Resettled t₁ i₁ more t' i') :
    Resettled t i (log ++ more) t' i' := by
  induction h with
  | nil => exact h'
  | cons sound taken again _ ih => exact .cons sound taken again (ih h')

/-- The walk that stores with `insert` goes through the stretch. -/
theorem rehashes (hK : K.Lawful) (h : Resettled t i log t' i') (hslots : t.capacity = slots)
    (events : List TableEvent) : Rehashes slots ⟨t, events⟩ i log ⟨t', events⟩ i' := by
  induction h with
  | nil t i => exact .nil _ _
  | @cons t t₁ t' i i' rest sound taken again _ ih =>
    have hcapacity : t₁.capacity = slots :=
      again.capacity_eq.trans ((capacity_cleared t i).trans hslots)
    have hmore := ih hcapacity
    rw [hcapacity] at hmore
    exact .cons (keyAt_ok (taken.lt hK)) taken (takeSlot_ok hK sound taken)
      (settles_insertWithin 64 _ _ _ _ events again) hmore

end Resettled

/-! ### One entry -/

/-- The entry from slot `i` in slot `j`. -/
def shifted (t : Table K ν) (i j : Nat) : Table K ν :=
  (t.cleared i).put j (t.slot i).1 (t.slot i).2

theorem keys_shifted (t : Table K ν) (i j : Nat) : (t.shifted i j).keys = moved K t.keys i j := rfl

/-- An entry that goes back to its slot leaves the table as it was. -/
theorem shifted_self (hK : K.Lawful) (h : t.Sound) (hi : K.Taken t.keys i) : t.shifted i i = t := by
  have hkeys : moved K t.keys i i = t.keys := moved_self (hi.lt hK)
  have hvalue : i < t.values.size := by rw [h.sizes]; exact hi.lt hK
  have hvalues : (t.values.setIfInBounds i default).setIfInBounds i (t.values.getD i default) =
      t.values := by
    have hget : t.values.getD i default = t.values[i] := by simp [hvalue]
    rw [hget, Array.setIfInBounds_setIfInBounds, Array.setIfInBounds_def, dif_pos hvalue]
    exact Array.set_getElem_self hvalue
  have hcount : (if K.Taken (t.cleared i).keys i then t.count - 1 else t.count - 1 + 1) = t.count := by
    have := h.count_pos hK hi
    rw [if_neg (not_taken_cleared hK (hi.lt hK))]
    omega
  show Table.mk (moved K t.keys i i)
    ((t.values.setIfInBounds i default).setIfInBounds i (t.values.getD i default))
    (if K.Taken (t.cleared i).keys i then t.count - 1 else t.count - 1 + 1) t.threshold
    t.loadFactor = t
  rw [hkeys, hvalues, hcount]

theorem slot_shifted (h : t.Sound) (hi : i < t.keys.size) (hj : j < t.keys.size) {k : Nat}
    (hki : k ≠ i) (hkj : k ≠ j) : (t.shifted i j).slot k = t.slot k := by
  have hvi : i < t.values.size := by rwa [h.sizes]
  have hvj : j < (t.values.setIfInBounds i default).size := by simpa [h.sizes] using hj
  have hkey : K.held (moved K t.keys i j) k = K.held t.keys k := held_moved_of_ne hi hj hkj hki
  have hvalue : ((t.values.setIfInBounds i default).setIfInBounds j
      (t.values.getD i default)).getD k default = t.values.getD k default := by
    rw [value_set hvj, if_neg hkj, value_set hvi, if_neg hki]
  exact Prod.ext hkey hvalue

/-- With an entry taken out the count is below the threshold. -/
theorem Sound.room_cleared (hK : K.Lawful) (h : t.Sound) (hi : K.Taken t.keys i) :
    (t.cleared i).count < (t.cleared i).threshold := by
  have := h.count_pos hK hi
  have := h.count_le
  show t.count - 1 < t.threshold
  omega

/-- An entry that is taken out has its place again, below the threshold. -/
theorem Sound.again (hK : K.Lawful) (h : t.Sound) (hi : K.Taken t.keys i)
    (hj : K.Seats (t.cleared i).keys (K.held t.keys i) j)
    (hvacant : ¬ K.Taken (t.cleared i).keys j) :
    Settled (t.cleared i) (t.slot i).1 (t.slot i).2 (t.shifted i j) :=
  ⟨h.cleared hK hi, hi, h.room_cleared hK hi, j, hj, hvacant, rfl⟩

/-- An entry may go back to the slot that it was in. -/
theorem Sound.again_self (hK : K.Lawful) (h : t.Sound) (hi : K.Taken t.keys i)
    (hseats : K.Seats (t.cleared i).keys (K.held t.keys i) i) :
    Settled (t.cleared i) (t.slot i).1 (t.slot i).2 t := by
  have hagain := h.again hK hi hseats (not_taken_cleared hK (hi.lt hK))
  rwa [shifted_self hK h hi] at hagain

theorem Sound.shifted (hK : K.Lawful) (h : t.Sound) (hi : K.Taken t.keys i)
    (hj : j < t.keys.size) : (t.shifted i j).Sound := by
  have hlt : j < (t.cleared i).keys.size := by simpa [Table.cleared] using hj
  exact (h.cleared hK hi).put hK hlt hi (fun _ => h.room_cleared hK hi) _

theorem entries_shifted (hK : K.Lawful) (h : t.Sound) (hi : K.Taken t.keys i)
    (hj : j < t.keys.size) (hvacant : ¬ K.Taken (t.cleared i).keys j) :
    (t.shifted i j).entries.Perm t.entries := by
  have hcleared := h.cleared hK hi
  have hlt : j < (t.cleared i).keys.size := by simpa [cleared] using hj
  calc (t.shifted i j).entries
    _ ~ t.slot i :: (t.cleared i).others j := entries_put hcleared.sizes hlt hi _
    _ ~ t.slot i :: (t.cleared i).entries := (entries_vacant hcleared.sizes hlt hvacant).symm.cons _
    _ ~ t.slot i :: t.others i := (entries_cleared hK h.sizes (hi.lt hK)).cons _
    _ ~ t.entries := (entries_taken hK h.sizes hi).symm

/-! ### A lap -/

/-- What `n` slots hold, from `first` slots behind `start` on. -/
def span (t : Table K ν) (start first n : Nat) : List (κ × ν) :=
  (List.range' first n).map fun k => t.slot (wrap t.capacity (start + k))

theorem span_succ (t : Table K ν) (start first n : Nat) : t.span start first (n + 1) =
    t.slot (wrap t.capacity (start + first)) :: t.span start (first + 1) n := rfl

theorem length_span (t : Table K ν) (start first n : Nat) : (t.span start first n).length = n := by
  rw [span, List.length_map, List.length_range']

/-- The walk behind slot `start` of the table `old`, `steps` slots on. -/
structure Underway (rank : κ → Nat) (old t : Table K ν) (start steps : Nat) : Prop where
  walking : ∃ hole bound, K.Walking rank old.keys t.keys start steps hole bound
  sound : t.Sound
  entries : t.entries.Perm (old.others start)
  loadFactor : t.loadFactor = old.loadFactor
  unseen : ∀ i, i < t.keys.size → steps < ahead t.keys.size start i → t.slot i = old.slot i

namespace Underway
variable {rank : κ → Nat} {old : Table K ν} {start steps : Nat}

theorem capacity (h : Underway rank old t start steps) : t.capacity = old.capacity := by
  obtain ⟨_, _, hwalking⟩ := h.walking
  exact hwalking.size

/-- Where the removed entry was, the walk begins. -/
theorem begins (hK : K.Lawful) (h : t.Sound) (hordered : K.Ordered rank t.keys)
    (hvacant : ∀ j, ¬ K.Taken t.keys j → K.held t.keys j = K.reserved) (hi : K.Taken t.keys i) :
    Underway rank t (t.cleared i) i 0 := by
  have hlt := hi.lt hK
  refine ⟨⟨i, _, .begins hK hordered hvacant hi⟩, h.cleared hK hi,
    entries_cleared hK h.sizes hlt, rfl, fun j _ hahead => ?_⟩
  have hne : j ≠ i := by
    intro he
    rw [he, ahead_self] at hahead
    omega
  have hvalue : i < t.values.size := by rwa [h.sizes]
  exact Prod.ext (held_set_of_ne hlt hne) ((value_set hvalue default j).trans (if_neg hne))

/-- A step takes the next entry out and stores it in the hole, or where it was. -/
theorem next (hK : K.Lawful) (hrank : ∀ a b, K.same a b = true → rank a = rank b)
    (h : Underway rank old t start steps) (hstart : start < t.keys.size) (hi : K.Taken old.keys i)
    (hnext : ahead t.keys.size start i = steps + 1) :
    ∃ t', K.Taken t.keys i ∧ Settled (t.cleared i) (t.slot i).1 (t.slot i).2 t' ∧
      Underway rank old t' start (steps + 1) := by
  obtain ⟨hole, bound, hwalking⟩ := h.walking
  have hs := h.sound.isPowerOfTwo
  have htaken : K.Taken t.keys i := (hwalking.taken_ahead (by omega)).mpr hi
  have hlt := htaken.lt hK
  have hhole := hwalking.hole_lt hK
  -- A slot further ahead is neither the one that is taken now nor the hole.
  have hahead {j k : Nat} (hj : ahead t.keys.size start j ≤ steps + 1)
      (hk : steps + 1 < ahead t.keys.size start k) : k ≠ j := by
    intro he
    rw [he] at hk
    omega
  have hnear : ahead t.keys.size start hole ≤ steps + 1 := hwalking.near.trans (Nat.le_succ _)
  by_cases hpass : Passes t.keys.size (K.home t.keys.size (K.held t.keys i)) i hole
  · have hseats := hwalking.move_seats hK hrank htaken hpass
    have hvacant : ¬ K.Taken (t.cleared i).keys hole := by
      have hne : hole ≠ i := fun he => hwalking.hole_vacant (he ▸ htaken)
      rw [Taken, cleared, held_set_of_ne hlt hne]
      exact hwalking.hole_vacant
    refine ⟨t.shifted i hole, htaken, h.sound.again hK htaken hseats hvacant,
      ⟨i, _, hwalking.move hK hs hstart htaken hnext hpass⟩, h.sound.shifted hK htaken hhole,
      (entries_shifted hK h.sound htaken hhole hvacant).trans h.entries, h.loadFactor,
      fun k hk hfar => ?_⟩
    rw [keys_shifted, size_moved] at hk hfar
    rw [slot_shifted h.sound hlt hhole (hahead (by omega) hfar) (hahead hnear hfar)]
    exact h.unseen k hk (by omega)
  · have hseats := hwalking.stay_seats hK hrank htaken hpass
    exact ⟨t, htaken, h.sound.again_self hK htaken hseats,
      ⟨hole, bound, hwalking.stay hK hstart htaken hnext hpass⟩, h.sound, h.entries, h.loadFactor,
      fun k hk hfar => h.unseen k hk (by omega)⟩

/-- Through `n` slots that were taken, within the lap. -/
theorem lap (hK : K.Lawful) (hrank : ∀ a b, K.same a b = true → rank a = rank b) (n : Nat)
    (h : Underway rank old t start steps) (hstart : start < old.capacity)
    (hn : steps + n < old.capacity)
    (htaken : ∀ k, k < n → K.Taken old.keys (wrap old.capacity (start + (steps + 1 + k)))) :
    ∃ t', Resettled t (wrap old.capacity (start + (steps + 1))) (old.span start (steps + 1) n) t'
        (wrap old.capacity (start + (steps + 1 + n))) ∧
      Underway rank old t' start (steps + n) := by
  induction n generalizing t steps with
  | zero => exact ⟨t, .nil _ _, h⟩
  | succ n ih =>
    have hsize : t.keys.size = old.capacity := h.capacity
    have hs : old.capacity.isPowerOfTwo := hsize ▸ h.sound.isPowerOfTwo
    have hi : K.Taken old.keys (wrap old.capacity (start + (steps + 1))) :=
      htaken 0 (Nat.succ_pos n)
    have hnext : ahead old.capacity start (wrap old.capacity (start + (steps + 1))) =
        steps + 1 := ahead_wrap hs hstart (by omega)
    obtain ⟨t₁, htaken₁, hagain, h₁⟩ := h.next hK hrank (by rwa [hsize]) hi (by rwa [hsize])
    have hslot := h.unseen _ (htaken₁.lt hK) (by rw [hsize, hnext]; exact Nat.lt_succ_self _)
    obtain ⟨t', hmore, h'⟩ := ih h₁ (by omega) fun k hk => by
      have := htaken (k + 1) (by omega)
      rwa [show steps + 1 + (k + 1) = steps + 1 + 1 + k by omega] at this
    refine ⟨t', ?_, by rwa [show steps + (n + 1) = steps + 1 + n by omega]⟩
    rw [span_succ, show steps + 1 + (n + 1) = steps + 1 + 1 + n by omega, ← hslot]
    refine .cons h.sound htaken₁ hagain ?_
    rw [h₁.capacity, wrap_wrap_succ hs, Nat.add_assoc start]
    exact hmore

end Underway

/-! ### A table in order -/

/-- Through an ordered table a walk changes nothing. -/
theorem resettled_ordered (hK : K.Lawful) {rank : κ → Nat}
    (hrank : ∀ a b, K.same a b = true → rank a = rank b) (h : t.Sound)
    (hordered : K.Ordered rank t.keys) (start first n : Nat)
    (htaken : ∀ k, k < n → K.Taken t.keys (wrap t.capacity (start + (first + k)))) :
    Resettled t (wrap t.capacity (start + first)) (t.span start first n) t
      (wrap t.capacity (start + (first + n))) := by
  induction n generalizing first with
  | zero => exact .nil _ _
  | succ n ih =>
    have hi := htaken 0 (Nat.succ_pos n)
    rw [span_succ, show first + (n + 1) = first + 1 + n by omega]
    refine .cons h hi (h.again_self hK hi (hordered.seats_vacated hK hrank hi)) ?_
    rw [capacity, wrap_wrap_succ h.isPowerOfTwo, Nat.add_assoc start]
    refine ih (first + 1) fun k hk => ?_
    have := htaken (k + 1) (by omega)
    rwa [show first + (k + 1) = first + 1 + k by omega] at this

end SlotArrays.Table
