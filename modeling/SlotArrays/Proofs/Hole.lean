import SlotArrays.Proofs.Layout

/-! The hole behind a removal.

Vacating slot `start` of an ordered array leaves a hole that may cut off entries
stored behind it. The walk takes these slots in turn: a key whose probe passes the
hole moves into it, and its own slot is the new hole; any other key goes back to
where it was. `Walking` is what holds after a number of these steps. The array is
ordered but for the hole, and a probe that passes the hole ends ahead of the walk,
at a key of higher rank than all that has moved. When the walk comes to a vacant
slot or has gone around, no probe can pass the hole, and the array is ordered. -/
namespace SlotArrays.Keying
open SlotCircle
variable {κ : Type} {K : Keying κ} {rank : κ → Nat} {keys : Array κ} {i j : Nat}

/-! ### Storing a key again -/

/-- A key taken out of slot `i` has its place at slot `j` if the slots that its probe passes
hold keys of other ranks. -/
theorem seats_vacated (hK : K.Lawful) (hrank : ∀ a b, K.same a b = true → rank a = rank b)
    (hi : i < keys.size) (hj : j < keys.size) (hvacant : j = i ∨ ¬ K.Taken keys j)
    (hpassed : ∀ k, k < keys.size → Passes keys.size (K.home keys.size (K.held keys i)) j k →
      k ≠ i ∧ K.Taken keys k ∧ rank (K.held keys k) ≠ rank (K.held keys i)) :
    K.Seats (keys.setIfInBounds i K.reserved) (K.held keys i) j := by
  refine ⟨by simpa using hj, .inl ?_, fun k hk hpass => ?_⟩
  · rcases hvacant with rfl | hvacant
    · rw [held_set_self hi]
      exact hK.vacates_reserved
    · rw [held_set hi]
      split
      · exact hK.vacates_reserved
      · exact not_taken.mp hvacant
  · rw [Array.size_setIfInBounds] at hk hpass
    obtain ⟨hne, htaken, hother⟩ := hpassed k hk hpass
    rw [Taken, held_set_of_ne hi hne]
    exact ⟨htaken, Bool.eq_false_iff.mpr fun hsame => hother (hrank _ _ hsame)⟩

/-- A key taken out of an ordered array has its place where it was. -/
theorem Ordered.seats_vacated (hK : K.Lawful)
    (hrank : ∀ a b, K.same a b = true → rank a = rank b) (h : K.Ordered rank keys)
    (hi : K.Taken keys i) : K.Seats (keys.setIfInBounds i K.reserved) (K.held keys i) i := by
  refine Keying.seats_vacated hK hrank (hi.lt hK) (hi.lt hK) (.inl rfl) fun k hk hpass => ?_
  obtain ⟨htaken, hlt⟩ := h k i hk hi hpass
  exact ⟨fun he => not_passes_self _ _ _ (he ▸ hpass), htaken, Nat.ne_of_lt hlt⟩

/-! ### Moving a key -/

variable (K) in
/-- The array with the key from slot `i` in slot `hole`. -/
def moved (keys : Array κ) (i hole : Nat) : Array κ :=
  (keys.setIfInBounds i K.reserved).setIfInBounds hole (K.held keys i)

section Moved
variable {hole : Nat}

theorem size_moved : (moved K keys i hole).size = keys.size := by
  simp [moved]

theorem held_moved (hi : i < keys.size) (hhole : hole < keys.size) (j : Nat) :
    K.held (moved K keys i hole) j =
      if j = hole then K.held keys i else if j = i then K.reserved else K.held keys j := by
  rw [moved, held_set (by simpa using hhole), held_set hi]

theorem held_moved_of_ne (hi : i < keys.size) (hhole : hole < keys.size) (hj : j ≠ hole)
    (hji : j ≠ i) : K.held (moved K keys i hole) j = K.held keys j := by
  rw [held_moved hi hhole, if_neg hj, if_neg hji]

theorem taken_moved (hK : K.Lawful) (hi : K.Taken keys i) (hhole : hole < keys.size) (j : Nat) :
    K.Taken (moved K keys i hole) j ↔ j = hole ∨ j ≠ i ∧ K.Taken keys j := by
  rw [Taken, held_moved (hi.lt hK) hhole]
  by_cases he : j = hole
  · rw [if_pos he]
    exact ⟨fun _ => .inl he, fun _ => hi⟩
  · rw [if_neg he]
    by_cases hji : j = i
    · subst hji
      simp [he, hK.vacates_reserved]
    · simp [he, hji, Taken]

/-- A slot that is taken after the move holds the key that has moved, or what it held before. -/
theorem moved_cases (hK : K.Lawful) (hi : K.Taken keys i) (hhole : hole < keys.size)
    (hj : K.Taken (moved K keys i hole) j) :
    j = hole ∧ K.held (moved K keys i hole) j = K.held keys i ∨
      j ≠ i ∧ K.Taken keys j ∧ K.held (moved K keys i hole) j = K.held keys j := by
  by_cases he : j = hole
  · exact .inl ⟨he, by rw [held_moved (hi.lt hK) hhole, if_pos he]⟩
  · obtain ⟨hji, hj⟩ := ((taken_moved hK hi hhole j).mp hj).resolve_left he
    exact .inr ⟨hji, hj, held_moved_of_ne (hi.lt hK) hhole he hji⟩

/-- Moving a key to where it is changes nothing. -/
theorem moved_self (hi : i < keys.size) : moved K keys i i = keys := by
  apply Array.ext
  · exact size_moved
  · intro j hj hj'
    rw [← held_eq (K := K) hj, ← held_eq (K := K) hj', held_moved hi hi]
    by_cases he : j = i
    · rw [if_pos he, he]
    · rw [if_neg he, if_neg he]

end Moved

/-! ### The walk -/

variable (K) in
/-- `steps` slots behind `start` have been taken, and `hole` is the vacant one. Keys with a
rank of `bound` or more have not moved. -/
structure Walking (rank : κ → Nat) (old keys : Array κ) (start steps hole bound : Nat) :
    Prop where
  size : keys.size = old.size
  was_taken : K.Taken old hole
  near : ahead keys.size start hole ≤ steps
  taken : ∀ j, K.Taken keys j ↔ K.Taken old j ∧ j ≠ hole
  vacant : ∀ j, ¬ K.Taken keys j → K.held keys j = K.reserved
  ordered : ∀ i j, i < keys.size → K.Taken keys j →
    Passes keys.size (K.home keys.size (K.held keys j)) j i →
    i = hole ∨ K.Taken keys i ∧ rank (K.held keys i) < rank (K.held keys j)
  late : ∀ j, K.Taken keys j → Passes keys.size (K.home keys.size (K.held keys j)) j hole →
    bound ≤ rank (K.held keys j) ∧ steps < ahead keys.size start j
  early : ∀ j, K.Taken keys j → ahead keys.size start j < ahead keys.size start hole →
    ahead keys.size start j < ahead keys.size start (K.home keys.size (K.held keys j)) →
    rank (K.held keys j) < bound

namespace Walking
variable {old : Array κ} {start steps hole bound : Nat}

theorem hole_lt (hK : K.Lawful) (h : K.Walking rank old keys start steps hole bound) :
    hole < keys.size := by
  rw [h.size]
  exact h.was_taken.lt hK

theorem hole_vacant (h : K.Walking rank old keys start steps hole bound) :
    ¬ K.Taken keys hole := fun ht => ((h.taken hole).mp ht).2 rfl

theorem ne_hole (h : K.Walking rank old keys start steps hole bound) (hi : K.Taken keys i) :
    i ≠ hole := fun he => h.hole_vacant (he ▸ hi)

/-- Ahead of the walk slots are taken as they were. -/
theorem taken_ahead (h : K.Walking rank old keys start steps hole bound)
    (hi : steps < ahead keys.size start i) : K.Taken keys i ↔ K.Taken old i := by
  rw [h.taken]
  refine ⟨And.left, fun ht => ⟨ht, fun he => ?_⟩⟩
  have := h.near
  rw [he] at hi
  omega

theorem begins (hK : K.Lawful) (h : K.Ordered rank old)
    (hvacant : ∀ j, ¬ K.Taken old j → K.held old j = K.reserved) (hstart : K.Taken old start) :
    K.Walking rank old (old.setIfInBounds start K.reserved) start 0 start
      (rank (K.held old start)) := by
  have hlt := hstart.lt hK
  have htaken (j : Nat) :
      K.Taken (old.setIfInBounds start K.reserved) j ↔ K.Taken old j ∧ j ≠ start := by
    by_cases he : j = start
    · simp [he, Taken, held_set_self hlt, hK.vacates_reserved]
    · simp [he, Taken, held_set_of_ne hlt he]
  refine ⟨by simp, hstart, by simp [ahead_self], htaken, fun j hj => ?_, fun i j hi hj hpass => ?_,
    fun j hj hpass => ?_, fun j _ hlt => ?_⟩
  · rw [held_set hlt]
    split
    · rfl
    · exact hvacant j fun ht => hj ((htaken j).mpr ⟨ht, ‹_›⟩)
  · obtain ⟨hj, hne⟩ := (htaken j).mp hj
    rw [Array.size_setIfInBounds] at hi hpass
    rw [held_set_of_ne hlt hne] at hpass ⊢
    obtain ⟨hi, hrank⟩ := h i j hi hj hpass
    by_cases he : i = start
    · exact .inl he
    · rw [htaken, held_set_of_ne hlt he]
      exact .inr ⟨⟨hi, he⟩, hrank⟩
  · obtain ⟨hj, hne⟩ := (htaken j).mp hj
    rw [Array.size_setIfInBounds] at hpass ⊢
    rw [held_set_of_ne hlt hne] at hpass ⊢
    refine ⟨(h start j hlt hj hpass).2.le, Nat.pos_of_ne_zero fun h0 => hne ?_⟩
    refine ahead_inj hlt (hj.lt hK) hlt ?_
    rw [h0, ahead_self]
  · rw [ahead_self] at hlt
    omega

/-- Behind the walk no probe for a key passes the hole. -/
theorem not_passes_hole (h : K.Walking rank old keys start steps hole bound)
    (hj : K.Taken keys j) (hnear : ahead keys.size start j ≤ steps) :
    ¬ Passes keys.size (K.home keys.size (K.held keys j)) j hole := by
  intro hpass
  have := (h.late j hj hpass).2
  omega

/-! A step takes the key out of slot `i`, the next one of the walk. -/

/-- A key whose probe does not pass the hole stays. -/
theorem stay (hK : K.Lawful) (h : K.Walking rank old keys start steps hole bound)
    (hstart : start < keys.size) (hi : K.Taken keys i)
    (hnext : ahead keys.size start i = steps + 1)
    (hpass : ¬ Passes keys.size (K.home keys.size (K.held keys i)) i hole) :
    K.Walking rank old keys start (steps + 1) hole bound := by
  refine {h with near := h.near.trans (Nat.le_succ _), late := fun j hj hpass' => ?_}
  obtain ⟨hbound, hlt⟩ := h.late j hj hpass'
  refine ⟨hbound, Nat.lt_of_le_of_ne hlt fun he => hpass ?_⟩
  rw [← ahead_inj hstart (hj.lt hK) (hi.lt hK) (he.symm.trans hnext.symm)]
  exact hpass'

theorem stay_seats (hK : K.Lawful) (h : K.Walking rank old keys start steps hole bound)
    (hrank : ∀ a b, K.same a b = true → rank a = rank b) (hi : K.Taken keys i)
    (hpass : ¬ Passes keys.size (K.home keys.size (K.held keys i)) i hole) :
    K.Seats (keys.setIfInBounds i K.reserved) (K.held keys i) i := by
  refine seats_vacated hK hrank (hi.lt hK) (hi.lt hK) (.inl rfl) fun k hk hk' => ?_
  rcases h.ordered k i hk hi hk' with rfl | ⟨htaken, hlt⟩
  · exact absurd hk' hpass
  · exact ⟨fun he => not_passes_self _ _ _ (he ▸ hk'), htaken, Nat.ne_of_lt hlt⟩

/-- What the probe for a key passes before the hole. -/
theorem passed_before_hole (h : K.Walking rank old keys start steps hole bound)
    (hi : K.Taken keys i) (hpass : Passes keys.size (K.home keys.size (K.held keys i)) i hole)
    {k : Nat} (hk : k < keys.size)
    (hk' : Passes keys.size (K.home keys.size (K.held keys i)) hole k) :
    k ≠ hole ∧ k ≠ i ∧ K.Taken keys k ∧ rank (K.held keys k) < rank (K.held keys i) := by
  have hne : k ≠ hole := fun he => not_passes_self _ _ _ (he ▸ hk')
  refine ⟨hne, fun he => ?_, (h.ordered k i hk hi (hk'.trans hpass)).resolve_left hne⟩
  rw [he] at hk'
  exact not_passes_self _ _ _ (hpass.trans hk')

theorem move_seats (hK : K.Lawful) (h : K.Walking rank old keys start steps hole bound)
    (hrank : ∀ a b, K.same a b = true → rank a = rank b) (hi : K.Taken keys i)
    (hpass : Passes keys.size (K.home keys.size (K.held keys i)) i hole) :
    K.Seats (keys.setIfInBounds i K.reserved) (K.held keys i) hole := by
  refine seats_vacated hK hrank (hi.lt hK) (h.hole_lt hK) (.inr h.hole_vacant) fun k hk hk' => ?_
  obtain ⟨_, hne, htaken, hlt⟩ := h.passed_before_hole hi hpass hk hk'
  exact ⟨hne, htaken, Nat.ne_of_lt hlt⟩

/-- A probe that ends behind the walk and does not pass the hole has come around only to a
key of lower rank than `bound`. -/
theorem early_of_around (hK : K.Lawful) (h : K.Walking rank old keys start steps hole bound)
    (hs : keys.size.isPowerOfTwo) (hstart : start < keys.size) (hj : K.Taken keys j)
    (hnear : ahead keys.size start j ≤ steps)
    (haround : ahead keys.size start j <
      ahead keys.size start (K.home keys.size (K.held keys j))) :
    rank (K.held keys j) < bound := by
  refine h.early j hj (Nat.lt_of_not_le fun hle => ?_) haround
  have hne := ahead_ne hstart (hj.lt hK) (h.hole_lt hK) (h.ne_hole hj)
  refine h.not_passes_hole hj hnear (passes_of_around haround (by omega) hstart (K.home_lt hs _)
    (h.hole_lt hK))

/-- A probe that passes the hole passes the next slot too, and ends at a key of higher rank. -/
theorem rank_lt_of_passes_hole (hK : K.Lawful) (hs : keys.size.isPowerOfTwo)
    (h : K.Walking rank old keys start steps hole bound) (hstart : start < keys.size)
    (hi : K.Taken keys i) (hnext : ahead keys.size start i = steps + 1) (hj : K.Taken keys j)
    (hne : j ≠ i) (hpass : Passes keys.size (K.home keys.size (K.held keys j)) j hole) :
    rank (K.held keys i) < rank (K.held keys j) := by
  have hlate := (h.late j hj hpass).2
  have hbeyond : ahead keys.size start i < ahead keys.size start j := by
    have := ahead_ne hstart (hj.lt hK) (hi.lt hK) hne
    omega
  have hnear : ahead keys.size start hole < ahead keys.size start i := by
    have := h.near
    omega
  have hpassi := hpass.between hnear hbeyond hstart (K.home_lt hs _) (hj.lt hK) (hi.lt hK)
  exact ((h.ordered i j (hi.lt hK) hj hpassi).resolve_left (h.ne_hole hi)).2

/-- A probe that passes the next slot, in turn, ends ahead of it if the key there is to move:
else it would have come around, to a key of lower rank. -/
theorem late_next (hK : K.Lawful) (hs : keys.size.isPowerOfTwo)
    (h : K.Walking rank old keys start steps hole bound) (hstart : start < keys.size)
    (hi : K.Taken keys i) (hnext : ahead keys.size start i = steps + 1)
    (hmoves : Passes keys.size (K.home keys.size (K.held keys i)) i hole) (hj : K.Taken keys j)
    (hpass : Passes keys.size (K.home keys.size (K.held keys j)) j i) :
    rank (K.held keys i) < rank (K.held keys j) ∧ steps + 1 < ahead keys.size start j := by
  have hrank := ((h.ordered i j (hi.lt hK) hj hpass).resolve_left (h.ne_hole hi)).2
  refine ⟨hrank, Nat.lt_of_not_le fun hle => ?_⟩
  have hne : j ≠ i := fun he => not_passes_self _ _ _ (he ▸ hpass)
  have hbehind : ahead keys.size start j < ahead keys.size start i := by
    have := ahead_ne hstart (hj.lt hK) (hi.lt hK) hne
    omega
  have haround := hpass.around hbehind hstart (K.home_lt hs _) (hj.lt hK)
  have := h.early_of_around hK hs hstart hj (by omega) haround
  have := (h.late i hi hmoves).1
  omega

/-- After a move a probe passes the new hole and keys of lower rank only. -/
theorem ordered_moved (hK : K.Lawful) (hs : keys.size.isPowerOfTwo)
    (h : K.Walking rank old keys start steps hole bound) (hstart : start < keys.size)
    (hi : K.Taken keys i) (hnext : ahead keys.size start i = steps + 1)
    (hmoves : Passes keys.size (K.home keys.size (K.held keys i)) i hole) {k : Nat}
    (hk : k < keys.size) (hj : K.Taken (moved K keys i hole) j)
    (hpass : Passes keys.size (K.home keys.size (K.held (moved K keys i hole) j)) j k) :
    k = i ∨ K.Taken (moved K keys i hole) k ∧
      rank (K.held (moved K keys i hole) k) < rank (K.held (moved K keys i hole) j) := by
  have hlt := hi.lt hK
  have hhole := h.hole_lt hK
  rcases moved_cases hK hi hhole hj with ⟨rfl, hheld⟩ | ⟨hji, hj, hheld⟩
  · rw [hheld] at hpass ⊢
    obtain ⟨hkhole, hki, hk, hrank⟩ := h.passed_before_hole hi hmoves hk hpass
    rw [taken_moved hK hi hhole, held_moved_of_ne hlt hhole hkhole hki]
    exact .inr ⟨.inr ⟨hki, hk⟩, hrank⟩
  · rw [hheld] at hpass ⊢
    rcases h.ordered k j hk hj hpass with he | ⟨hk, hrank⟩
    · rw [he] at hpass ⊢
      rw [taken_moved hK hi hhole, held_moved hlt hhole, if_pos rfl]
      exact .inr ⟨.inl rfl, h.rank_lt_of_passes_hole hK hs hstart hi hnext hj hji hpass⟩
    · by_cases he : k = i
      · exact .inl he
      · rw [taken_moved hK hi hhole, held_moved_of_ne hlt hhole (h.ne_hole hk) he]
        exact .inr ⟨.inr ⟨he, hk⟩, hrank⟩

/-- A key whose probe passes the hole moves into it and leaves the next hole. -/
theorem move (hK : K.Lawful) (hs : keys.size.isPowerOfTwo)
    (h : K.Walking rank old keys start steps hole bound) (hstart : start < keys.size)
    (hi : K.Taken keys i) (hnext : ahead keys.size start i = steps + 1)
    (hpass : Passes keys.size (K.home keys.size (K.held keys i)) i hole) :
    K.Walking rank old (moved K keys i hole) start (steps + 1) i (rank (K.held keys i) + 1) := by
  have hlt := hi.lt hK
  have hhole := h.hole_lt hK
  have hbound := (h.late i hi hpass).1
  have hcases {j : Nat} := moved_cases hK hi hhole (j := j)
  have htaken (j : Nat) := taken_moved hK hi hhole j
  refine ⟨size_moved.trans h.size, ((h.taken i).mp hi).1, by rw [size_moved, hnext], fun j => ?_,
    fun j hj => ?_, fun k j hk hj hpass' => ?_, fun j hj hpass' => ?_, fun j hj hlt' haround => ?_⟩
  · rw [htaken, h.taken]
    constructor
    · rintro (rfl | ⟨hji, hj, _⟩)
      · exact ⟨h.was_taken, (h.ne_hole hi).symm⟩
      · exact ⟨hj, hji⟩
    · rintro ⟨hj, hji⟩
      by_cases he : j = hole
      · exact .inl he
      · exact .inr ⟨hji, hj, he⟩
  · rw [htaken, not_or] at hj
    rw [held_moved hlt hhole, if_neg hj.1]
    split
    · rfl
    · exact h.vacant j fun ht => hj.2 ⟨‹_›, ht⟩
  · rw [size_moved] at hk hpass'
    exact h.ordered_moved hK hs hstart hi hnext hpass hk hj hpass'
  · rw [size_moved] at hpass' ⊢
    rcases hcases hj with ⟨rfl, hheld⟩ | ⟨hji, hj, hheld⟩
    · rw [hheld] at hpass'
      exact absurd (hpass.trans hpass') (not_passes_self _ _ _)
    · rw [hheld] at hpass' ⊢
      exact h.late_next hK hs hstart hi hnext hpass hj hpass'
  · rw [size_moved] at hlt' haround
    rcases hcases hj with ⟨rfl, hheld⟩ | ⟨hji, hj, hheld⟩
    · rw [hheld]
      exact Nat.lt_succ_self _
    · rw [hheld] at haround ⊢
      have := h.early_of_around hK hs hstart hj (by omega) haround
      omega

/-- **The walk leaves an ordered array** when the slot that comes next is vacant or there is
none. -/
theorem ends (hK : K.Lawful) (hs : keys.size.isPowerOfTwo)
    (h : K.Walking rank old keys start steps hole bound) (hstart : start < keys.size)
    (hend : ∀ i, ahead keys.size start i = steps + 1 → ¬ K.Taken keys i) :
    K.Ordered rank keys := by
  intro i j hi hj hpass
  refine (h.ordered i j hi hj hpass).resolve_left ?_
  rintro rfl
  obtain ⟨_, hlate⟩ := h.late j hj hpass
  have hroom : steps + 1 < keys.size := by
    have := ahead_lt hstart (hj.lt hK)
    have : ahead keys.size start j ≠ steps + 1 := fun he => hend j he hj
    omega
  have hnext := ahead_wrap hs hstart hroom
  have hvacant := hend _ hnext
  have hnear := h.near
  have hpassed : Passes keys.size (K.home keys.size (K.held keys j)) j
      (wrap keys.size (start + (steps + 1))) := by
    refine hpass.between (p := start) (by omega) ?_ hstart (K.home_lt hs _) (hj.lt hK)
      (wrap_lt hs _)
    have : ahead keys.size start j ≠ steps + 1 := fun he => hend j he hj
    omega
  rcases h.ordered _ j (wrap_lt hs _) hj hpassed with he | ⟨ht, _⟩
  · rw [he] at hnext
    omega
  · exact hvacant ht

end Walking
end SlotArrays.Keying
