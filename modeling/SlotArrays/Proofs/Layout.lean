import SlotArrays.Proofs.Probing

/-! Keys laid out in order.

`layout size list` is what storing the keys of a list one after the other makes of
`size` vacant slots: each goes into the first vacant slot of its probe (`place`).
The arrays that come about in this way can be told without the list's history.
An array is `Ordered` by a rank of the keys when a probe for a stored key passes
stored keys of lower rank only; it is `Arranged` for a list when moreover the list
holds its keys by ascending rank. An arranged array is the layout of its list
(`Arranged.eq_layout`), so the layout depends on the order only as far as one
key's probe passes another. -/
namespace SlotArrays.Keying
open SlotCircle
variable {κ : Type} (K : Keying κ)

/-- The slots of one lap from a hash on, the hash read without a sign. -/
def lap (size : Nat) (hash : Int32) : List Nat :=
  (List.range size).map fun n => (hash.toUInt32.toNat + n) % size

/-- The key in the first vacant slot of its lap. -/
def place (keys : Array κ) (key : κ) : Array κ :=
  match (lap keys.size (K.hash key)).find? fun i => K.vacates (K.held keys i) with
  | some i => keys.setIfInBounds i key
  | none => keys

/-- The keys of a list, placed one after the other in vacant slots. -/
def layout (size : Nat) (list : List κ) : Array κ :=
  list.foldl K.place (Array.replicate size K.reserved)

/-- The list after its key equal to `key` is spelled as `key`; a new key comes last. -/
def restate (key : κ) (list : List κ) : List κ :=
  if list.any (K.same · key) then list.map fun k => if K.same k key then key else k
  else list ++ [key]

/-- A probe for a stored key passes stored keys of lower rank only. -/
def Ordered (rank : κ → Nat) (keys : Array κ) : Prop :=
  ∀ i j, i < keys.size → K.Taken keys j →
    Passes keys.size (K.home keys.size (K.held keys j)) j i →
    K.Taken keys i ∧ rank (K.held keys i) < rank (K.held keys j)

/-- The array holds the keys of the list, which stand there by ascending rank. -/
structure Arranged (rank : κ → Nat) (list : List κ) (keys : Array κ) : Prop where
  rank_congr : ∀ a b, K.same a b = true → rank a = rank b
  sorted : list.Pairwise fun a b => rank a < rank b
  mem : ∀ key, key ∈ list ↔ ∃ i, K.Taken keys i ∧ K.held keys i = key
  vacant : ∀ i, ¬ K.Taken keys i → K.held keys i = K.reserved
  ordered : K.Ordered rank keys

variable {K} {rank : κ → Nat} {list : List κ} {keys : Array κ} {key : κ} {i j : Nat}

/-! ### Placing -/

theorem getElem_lap (hs : keys.size.isPowerOfTwo) (key : κ) (n : Nat)
    (h : n < (lap keys.size (K.hash key)).length) :
    (lap keys.size (K.hash key))[n] = wrap keys.size (K.home keys.size key + n) := by
  simp only [lap, List.getElem_map, List.getElem_range, home, Probe.home, wrap_eq_mod hs,
    Nat.mod_add_mod]

theorem place_eq (hs : keys.size.isPowerOfTwo) (hi : i < keys.size) (hvacant : ¬ K.Taken keys i)
    (passed : ∀ j, j < keys.size → Passes keys.size (K.home keys.size key) i j → K.Taken keys j) :
    K.place keys key = keys.setIfInBounds i key := by
  have hh := K.home_lt hs key
  have hlt := ahead_lt hh hi
  have hfind : ((lap keys.size (K.hash key)).find? fun i => K.vacates (K.held keys i)) = some i := by
    rw [List.find?_eq_some_iff_getElem]
    refine ⟨not_taken.mp hvacant, ahead keys.size (K.home keys.size key) i, by simpa [lap] using hlt,
      ?_, fun n hn => ?_⟩
    · rw [getElem_lap hs, wrap_ahead hs hh hi]
    · have hpass : Passes keys.size (K.home keys.size key) i
          (wrap keys.size (K.home keys.size key + n)) := by
        rw [Passes, ahead_wrap hs hh (hn.trans hlt)]
        exact hn
      have htaken := passed _ (wrap_lt hs _) hpass
      rw [Taken] at htaken
      rw [getElem_lap hs, htaken]
      rfl
  rw [place, hfind]

/-- Where a vacant slot is left, a probe finds the first one. -/
theorem exists_first_vacant (hs : keys.size.isPowerOfTwo) (hj : j < keys.size)
    (hvacant : ¬ K.Taken keys j) (home : Nat) (hh : home < keys.size) :
    ∃ i, i < keys.size ∧ ¬ K.Taken keys i ∧
      ∀ k, k < keys.size → Passes keys.size home i k → K.Taken keys k := by
  obtain ⟨n, hn, hfirst, hpassed⟩ := exists_first (p := (¬ K.Taken keys ·)) hs hh hj hvacant
  refine ⟨_, wrap_lt hs _, hfirst, fun k hk hpass => ?_⟩
  rw [Passes, ahead_wrap hs hh hn] at hpass
  have htaken := hpassed _ hpass
  rwa [wrap_ahead hs hh hk, not_not] at htaken

/-! ### Ordered arrays -/

/-- Equal keys stand in one slot: else the probe for one of them would pass the other. -/
theorem Ordered.injective (hK : K.Lawful) (hs : keys.size.isPowerOfTwo)
    (hrank : ∀ a b, K.same a b = true → rank a = rank b) (h : K.Ordered rank keys)
    (hi : K.Taken keys i) (hj : K.Taken keys j)
    (hsame : K.same (K.held keys i) (K.held keys j) = true) : i = j := by
  by_contra hne
  have hr := hrank _ _ hsame
  have hhome := home_congr hK hsame keys.size
  rcases passes_or_passes (K.home_lt hs (K.held keys j)) (hi.lt hK) (hj.lt hK) hne with hp | hp
  · have := (h i j (hi.lt hK) hj hp).2
    omega
  · have := (h j i (hj.lt hK) hi (by rwa [hhome])).2
    omega

/-- Where keys are missing from an ordered array, the others are no further from home. -/
theorem Ordered.nearer (hK : K.Lawful) (hs : keys.size.isPowerOfTwo) (h : K.Ordered rank keys)
    {keys' : Array κ} (h' : K.Ordered rank keys') (hsize : keys'.size = keys.size)
    (hsub : ∀ i, K.Taken keys' i → ∃ j, K.Taken keys j ∧ K.held keys j = K.held keys' i)
    (hi : K.Taken keys i) (hj : K.Taken keys' j) (hheld : K.held keys' j = K.held keys i) :
    ahead keys.size (K.home keys.size (K.held keys i)) j ≤
      ahead keys.size (K.home keys.size (K.held keys i)) i := by
  -- A key that is further from home has been kept from its old slot by another one, of lower
  -- rank, which is further from home then, too.
  induction hr : rank (K.held keys i) using Nat.strongRecOn generalizing i j with
  | ind r ih =>
    by_contra hfar
    have hpass : Passes keys.size (K.home keys.size (K.held keys i)) j i := Nat.lt_of_not_le hfar
    obtain ⟨hi', hlow⟩ := h' i j (by rw [hsize]; exact hi.lt hK) hj (by rwa [hsize, hheld])
    obtain ⟨k, hk, hother⟩ := hsub i hi'
    rw [hheld, ← hother] at hlow
    have hne : i ≠ k := fun he => Nat.lt_irrefl _ (he ▸ hlow)
    have hnear := ih (rank (K.held keys k)) (by omega) hk hi' hother.symm rfl
    have hpass' : Passes keys.size (K.home keys.size (K.held keys k)) k i :=
      Nat.lt_of_le_of_ne hnear (ahead_ne (K.home_lt hs _) (hi.lt hK) (hk.lt hK) hne)
    have := (h i k (hi.lt hK) hk hpass').2
    omega

namespace Arranged

theorem injective (hK : K.Lawful) (hs : keys.size.isPowerOfTwo) (h : K.Arranged rank list keys)
    (hi : K.Taken keys i) (hj : K.Taken keys j)
    (hsame : K.same (K.held keys i) (K.held keys j) = true) : i = j :=
  h.ordered.injective hK hs h.rank_congr hi hj hsame

theorem replicate (hK : K.Lawful) (size : Nat) :
    K.Arranged (fun _ => 0) [] (Array.replicate size K.reserved) := by
  have hvacant (i : Nat) : ¬ K.Taken (Array.replicate size K.reserved) i := by
    rw [not_taken, held_replicate]
    exact hK.vacates_reserved
  refine ⟨fun _ _ _ => rfl, .nil, fun key => ?_, fun i _ => held_replicate size i,
    fun i j _ hj => absurd hj (hvacant j)⟩
  exact ⟨fun h => absurd h List.not_mem_nil, fun ⟨i, hi, _⟩ => absurd hi (hvacant i)⟩

/-! ### The layout of an arranged array -/

/-- Part way through: `placed` holds the keys of `done` where `keys` holds them, and
nothing else. -/
structure Placed (K : Keying κ) (keys : Array κ) (done : List κ) (placed : Array κ) : Prop where
  size : placed.size = keys.size
  held : ∀ i, K.Taken keys i → K.held keys i ∈ done → K.held placed i = K.held keys i
  vacant : ∀ i, (K.Taken keys i → K.held keys i ∉ done) → K.held placed i = K.reserved

/-- In a list by ascending rank the keys of lower rank stand before. -/
theorem mem_before {done rest : List κ} {k : κ}
    (hsorted : (done ++ key :: rest).Pairwise fun a b => rank a < rank b)
    (hmem : k ∈ done ++ key :: rest) (hlt : rank k < rank key) : k ∈ done := by
  rw [List.pairwise_append, List.pairwise_cons] at hsorted
  cases List.mem_append.mp hmem with
  | inl hdone => exact hdone
  | inr hrest =>
    cases List.mem_cons.mp hrest with
    | inl he =>
      rw [he] at hlt
      omega
    | inr hrest =>
      have := hsorted.2.1.1 k hrest
      omega

/-- The key that comes next by rank goes to the slot where `keys` holds it: the slots that
its probe passes hold keys of lower rank, which are placed. -/
theorem place_next {done rest placed} (hK : K.Lawful) (hs : keys.size.isPowerOfTwo)
    (h : K.Arranged rank list keys) (hlist : list = done ++ key :: rest)
    (hp : Placed K keys done placed) : Placed K keys (done ++ [key]) (K.place placed key) := by
  have hsorted := h.sorted
  rw [hlist] at hsorted
  obtain ⟨i, hi, rfl⟩ := (h.mem key).mp (by rw [hlist]; simp)
  have hlt := hi.lt hK
  have hnew : K.held keys i ∉ done := fun hd =>
    Nat.lt_irrefl _ ((List.pairwise_append.mp hsorted).2.2 _ hd _ List.mem_cons_self)
  have hplace : K.place placed (K.held keys i) = placed.setIfInBounds i (K.held keys i) := by
    refine place_eq (by rwa [hp.size]) (by rwa [hp.size]) ?_ fun j hj hpass => ?_
    · rw [not_taken, hp.vacant i fun _ => hnew]
      exact hK.vacates_reserved
    · rw [hp.size] at hj hpass
      obtain ⟨hj, hrank⟩ := h.ordered j i hj hi hpass
      have hmem : K.held keys j ∈ done ++ K.held keys i :: rest := by
        rw [← hlist]
        exact (h.mem _).mpr ⟨j, hj, rfl⟩
      rw [Taken, hp.held j hj (mem_before hsorted hmem hrank)]
      exact hj
  rw [hplace]
  have hbound : i < placed.size := by rwa [hp.size]
  refine ⟨by rw [Array.size_setIfInBounds, hp.size], fun j hj hmem => ?_, fun j hj => ?_⟩
  · by_cases he : j = i
    · rw [he, held_set_self hbound]
    · rw [held_set_of_ne hbound he]
      apply hp.held j hj
      rcases List.mem_append.mp hmem with hd | hlast
      · exact hd
      · refine absurd (h.injective hK hs hj hi ?_) he
        rw [List.mem_singleton.mp hlast]
        exact hK.refl _
  · have he : j ≠ i := by
      rintro rfl
      exact hj hi (by simp)
    rw [held_set_of_ne hbound he]
    exact hp.vacant j fun ht hd => hj ht (List.mem_append_left _ hd)

theorem place_rest {done rest placed} (hK : K.Lawful) (hs : keys.size.isPowerOfTwo)
    (h : K.Arranged rank list keys) (hlist : list = done ++ rest)
    (hp : Placed K keys done placed) : Placed K keys list (rest.foldl K.place placed) := by
  induction rest generalizing done placed with
  | nil =>
    rw [hlist, List.append_nil]
    exact hp
  | cons key rest ih =>
    exact ih (by rw [hlist, List.append_assoc]; rfl) (place_next hK hs h hlist hp)

/-- **An arranged array is the layout of its list.** -/
theorem eq_layout (hK : K.Lawful) (hs : keys.size.isPowerOfTwo) (h : K.Arranged rank list keys) :
    keys = K.layout keys.size list := by
  have hstart : Placed K keys [] (Array.replicate keys.size K.reserved) :=
    ⟨by simp, fun _ _ hd => absurd hd List.not_mem_nil, fun i _ => held_replicate _ i⟩
  have hp := place_rest hK hs h (List.nil_append list).symm hstart
  refine Array.ext hp.size.symm fun i hi hi' => ?_
  rw [← held_eq (K := K) hi, ← held_eq (K := K) hi']
  by_cases ht : K.Taken keys i
  · exact (hp.held i ht ((h.mem _).mpr ⟨i, ht, rfl⟩)).symm
  · rw [h.vacant i ht]
    exact (hp.vacant i fun hti => absurd hti ht).symm

/-! ### Storing a key -/

/-- Unless all slots are taken there is a place for every key. -/
theorem exists_seats (hK : K.Lawful) (hs : keys.size.isPowerOfTwo)
    (h : K.Arranged rank list keys) (hj : j < keys.size) (hvacant : ¬ K.Taken keys j) (key : κ) :
    ∃ i, K.Seats keys key i := by
  by_cases hold : ∃ i, K.Taken keys i ∧ K.same (K.held keys i) key = true
  · obtain ⟨i, hi, hsame⟩ := hold
    refine ⟨i, hi.lt hK, .inr hsame, fun k hk hpass => ?_⟩
    rw [← home_congr hK hsame] at hpass
    have hk := (h.ordered k i hk hi hpass).1
    refine ⟨hk, Bool.eq_false_iff.mpr fun hk' => ?_⟩
    have he := h.injective hK hs hk hi (hK.trans hk' (hK.symm hsame))
    exact not_passes_self _ _ _ (he ▸ hpass)
  · obtain ⟨i, hi, hv, hpassed⟩ := exists_first_vacant hs hj hvacant _ (K.home_lt hs key)
    refine ⟨i, hi, .inl (not_taken.mp hv), fun k hk hpass => ?_⟩
    have hk := hpassed k hk hpass
    exact ⟨hk, Bool.eq_false_iff.mpr fun hsame => hold ⟨k, hk, hsame⟩⟩

/-- A probe that ends at a vacant slot has no equal key anywhere. -/
theorem not_same_of_seats (hK : K.Lawful) (hs : keys.size.isPowerOfTwo)
    (h : K.Arranged rank list keys) (hi : K.Seats keys key i) (hvacant : ¬ K.Taken keys i)
    (hj : K.Taken keys j) : K.same (K.held keys j) key = false := by
  refine Bool.eq_false_iff.mpr fun hsame => ?_
  have hne : i ≠ j := fun he => hvacant (he ▸ hj)
  rcases passes_or_passes (K.home_lt hs key) hi.lt (hj.lt hK) hne with hp | hp
  · rw [← home_congr hK hsame] at hp
    exact hvacant (h.ordered i j hi.lt hj hp).1
  · rw [(hi.passed j (hj.lt hK) hp).2] at hsame
    cases hsame

theorem exists_rank_bound (rank : κ → Nat) (list : List κ) : ∃ bound, ∀ k ∈ list, rank k < bound := by
  induction list with
  | nil => exact ⟨0, fun _ h => absurd h List.not_mem_nil⟩
  | cons a rest ih =>
    obtain ⟨bound, hbound⟩ := ih
    refine ⟨max bound (rank a + 1), fun k hk => ?_⟩
    rcases List.mem_cons.mp hk with rfl | hk
    · omega
    · have := hbound k hk
      omega

/-- The ranks with `bound` for a key. -/
def raised (K : Keying κ) (rank : κ → Nat) (key : κ) (bound : Nat) (k : κ) : Nat :=
  if K.same k key then bound else rank k

theorem raised_self (hK : K.Lawful) (key : κ) (bound : Nat) :
    raised K rank key bound key = bound := if_pos (hK.refl key)

theorem raised_other {k : κ} (h : K.same k key = false) (bound : Nat) :
    raised K rank key bound k = rank k := if_neg (by simp [h])

/-- A new key goes to the end of the list, with a rank above all others. -/
theorem append (hK : K.Lawful) (h : K.Arranged rank list keys) (hkey : K.vacates key = false)
    (hi : K.Seats keys key i) (hvacant : ¬ K.Taken keys i)
    (hnew : ∀ k ∈ list, K.same k key = false) :
    ∃ rank', K.Arranged rank' (list ++ [key]) (keys.setIfInBounds i key) := by
  obtain ⟨bound, hbound⟩ := exists_rank_bound rank list
  have hlist {j : Nat} (hj : K.Taken keys j) : K.held keys j ∈ list := (h.mem _).mpr ⟨j, hj, rfl⟩
  have hrank {k : κ} (hk : k ∈ list) : raised K rank key bound k = rank k :=
    raised_other (hnew k hk) bound
  have hlast : raised K rank key bound key = bound := raised_self hK key bound
  refine ⟨raised K rank key bound, ?_, ?_, fun k => ?_, fun j hj => ?_,
    fun j k hj hk hpass => ?_⟩
  · intro a b hab
    simp only [raised, hK.same_congr hab key, h.rank_congr a b hab]
  · rw [List.pairwise_append]
    refine ⟨h.sorted.imp_of_mem fun ha hb hab => ?_, List.pairwise_singleton .., fun a ha b hb => ?_⟩
    · rw [hrank ha, hrank hb]
      exact hab
    · rw [List.mem_singleton.mp hb, hrank ha, hlast]
      exact hbound a ha
  · rw [List.mem_append, List.mem_singleton, h.mem]
    constructor
    · rintro (⟨j, hj, rfl⟩ | rfl)
      · have hne : j ≠ i := fun he => hvacant (he ▸ hj)
        exact ⟨j, (taken_set hi.lt hkey).mpr (.inr hj), held_set_of_ne hi.lt hne⟩
      · exact ⟨i, (taken_set hi.lt hkey).mpr (.inl rfl), held_set_self hi.lt⟩
    · rintro ⟨j, hj, rfl⟩
      by_cases he : j = i
      · exact .inr (by rw [he, held_set_self hi.lt])
      · have hj := ((taken_set hi.lt hkey).mp hj).resolve_left he
        exact .inl ⟨j, hj, (held_set_of_ne hi.lt he).symm⟩
  · rw [taken_set hi.lt hkey] at hj
    rw [held_set_of_ne hi.lt fun he => hj (.inl he)]
    exact h.vacant j fun ht => hj (.inr ht)
  · rw [Array.size_setIfInBounds] at hj hpass
    by_cases he : k = i
    · rw [he, held_set_self hi.lt] at hpass ⊢
      have hj := (hi.passed j hj hpass).1
      have hne : j ≠ i := fun he => hvacant (he ▸ hj)
      rw [taken_set hi.lt hkey, held_set_of_ne hi.lt hne, hrank (hlist hj), hlast]
      exact ⟨.inr hj, hbound _ (hlist hj)⟩
    · have hk := ((taken_set hi.lt hkey).mp hk).resolve_left he
      rw [held_set_of_ne hi.lt he] at hpass ⊢
      obtain ⟨hj, hlt⟩ := h.ordered j k hj hk hpass
      have hne : j ≠ i := fun he => hvacant (he ▸ hj)
      rw [taken_set hi.lt hkey, held_set_of_ne hi.lt hne, hrank (hlist hj), hrank (hlist hk)]
      exact ⟨.inr hj, hlt⟩

/-- A new spelling takes the place of the old one, in the array and in the list. -/
theorem respell (hK : K.Lawful) (hs : keys.size.isPowerOfTwo) (h : K.Arranged rank list keys)
    (hi : K.Taken keys i) (hsame : K.same (K.held keys i) key = true) :
    K.Arranged rank (list.map fun k => if K.same k key then key else k)
      (keys.setIfInBounds i key) := by
  have hlt := hi.lt hK
  have hkey : K.vacates key = false := (hK.vacates_congr hsame).symm.trans hi
  have htaken (j : Nat) : K.Taken (keys.setIfInBounds i key) j ↔ K.Taken keys j :=
    taken_set_taken hK hi hkey
  have hheld {j : Nat} : K.same (K.held keys j) (K.held (keys.setIfInBounds i key) j) = true := by
    by_cases he : j = i
    · rwa [he, held_set_self hlt]
    · rw [held_set_of_ne hlt he]
      exact hK.refl _
  have hspelled {j : Nat} (hj : K.Taken keys j) :
      (if K.same (K.held keys j) key then key else K.held keys j) =
        K.held (keys.setIfInBounds i key) j := by
    by_cases he : j = i
    · rw [he, held_set_self hlt, if_pos hsame]
    · have hother : ¬ K.same (K.held keys j) key = true := fun hj' =>
        he (h.injective hK hs hj hi (hK.trans hj' (hK.symm hsame)))
      rw [held_set_of_ne hlt he, if_neg hother]
  refine ⟨h.rank_congr, ?_, fun k => ?_, fun j hj => ?_, fun j k hj hk hpass => ?_⟩
  · have hrank (k : κ) : rank (if K.same k key then key else k) = rank k := by
      split
      · exact (h.rank_congr _ _ ‹_›).symm
      · rfl
    rw [List.pairwise_map]
    simpa only [hrank] using h.sorted
  · rw [List.mem_map]
    constructor
    · rintro ⟨_, hmem, rfl⟩
      obtain ⟨j, hj, rfl⟩ := (h.mem _).mp hmem
      exact ⟨j, (htaken j).mpr hj, (hspelled hj).symm⟩
    · rintro ⟨j, hj, rfl⟩
      have hj := (htaken j).mp hj
      exact ⟨_, (h.mem _).mpr ⟨j, hj, rfl⟩, hspelled hj⟩
  · rw [htaken] at hj
    rw [held_set_of_ne hlt fun (he : j = i) => hj (he ▸ hi)]
    exact h.vacant j hj
  · rw [Array.size_setIfInBounds] at hj hpass
    rw [← home_congr hK hheld] at hpass
    obtain ⟨hj, hrank⟩ := h.ordered j k hj ((htaken k).mp hk) hpass
    rw [h.rank_congr _ _ hheld, h.rank_congr _ _ (hheld (j := k))] at hrank
    exact ⟨(htaken j).mpr hj, hrank⟩

/-- Storing a key restates it in the list. -/
theorem restate (hK : K.Lawful) (hs : keys.size.isPowerOfTwo) (h : K.Arranged rank list keys)
    (hkey : K.vacates key = false) (hi : K.Seats keys key i) :
    ∃ rank', K.Arranged rank' (K.restate key list) (keys.setIfInBounds i key) := by
  by_cases ht : K.Taken keys i
  · have hsame : K.same (K.held keys i) key = true :=
      hi.stop.resolve_left fun hv => not_taken.mpr hv ht
    have hany : list.any (K.same · key) = true :=
      List.any_eq_true.mpr ⟨_, (h.mem _).mpr ⟨i, ht, rfl⟩, hsame⟩
    rw [Keying.restate, if_pos hany]
    exact ⟨rank, h.respell hK hs ht hsame⟩
  · have hnew : ∀ k ∈ list, K.same k key = false := by
      intro k hk
      obtain ⟨j, hj, rfl⟩ := (h.mem k).mp hk
      exact h.not_same_of_seats hK hs hi ht hj
    have hany : ¬ list.any (K.same · key) = true := by simpa using hnew
    rw [Keying.restate, if_neg hany]
    exact h.append hK hkey hi ht hnew

end Arranged
end SlotArrays.Keying
