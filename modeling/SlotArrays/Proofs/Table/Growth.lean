import SlotArrays.Proofs.SlotCount
import SlotArrays.Proofs.Table.Calls

/-! Storing and growing.

Between calls a table is `AtRest`: sound, and with its keys arranged for a list.
Storing into a table at rest, below its threshold, finds a place and leaves a table
at rest (`AtRest.store`). Growth stores every entry into a new table. The capacity is
chosen so that its threshold is above the number of entries, so every one of these
inner calls finds room and a vacant slot (`Settled`). All that growth asks of the inner
call is what it does then (`Settles`): what comes of storing (`AtRest.insert`) does not
depend on how deep growth may nest. -/
namespace SlotArrays.Table
open Keying
variable {κ ν : Type} {K : Keying κ} [Inhabited ν]

/-- A table between calls. The list holds its keys, each after those that its probe passes. -/
structure AtRest (t : Table K ν) (list : List κ) : Prop where
  sound : t.Sound
  arranged : ∃ rank, K.Arranged rank list t.keys

variable {t t' : Table K ν} {list : List κ} {events : List TableEvent} {i : Nat} {key : κ}
  {value : ν}

namespace AtRest

theorem vacant (hK : K.Lawful) {k : Nat} (hk : k < 64) (f : LoadFactor) :
    (Table.vacant (K := K) (ν := ν) (2 ^ k) f).AtRest [] :=
  ⟨.vacant hK hk f, _, .replicate hK _⟩

theorem injective (hK : K.Lawful) (h : t.AtRest list) (i j : Nat) (hi : K.Taken t.keys i)
    (hj : K.Taken t.keys j) (hsame : K.same (K.held t.keys i) (K.held t.keys j) = true) : i = j := by
  obtain ⟨_, hranked⟩ := h.arranged
  exact hranked.injective hK h.sound.isPowerOfTwo hi hj hsame

theorem entries_pairwise (hK : K.Lawful) (h : t.AtRest list) :
    t.entries.Pairwise fun a b => K.same a.1 b.1 = false :=
  Table.entries_pairwise (h.injective hK)

/-- The list holds the keys of the entries. -/
theorem mem_list (hK : K.Lawful) (h : t.AtRest list) : key ∈ list ↔ key ∈ t.entries.map Prod.fst := by
  obtain ⟨_, hranked⟩ := h.arranged
  rw [hranked.mem, List.mem_map]
  constructor
  · rintro ⟨i, hi, rfl⟩
    exact ⟨t.slot i, (mem_entries hK h.sound.sizes).mpr ⟨i, hi, rfl⟩, rfl⟩
  · rintro ⟨entry, hmem, rfl⟩
    obtain ⟨i, hi, rfl⟩ := (mem_entries hK h.sound.sizes).mp hmem
    exact ⟨i, hi, rfl⟩

/-! ### Storing below the threshold -/

/-- Beside the slot of a key are the entries under other keys. -/
theorem others_of_taken (hK : K.Lawful) (h : t.AtRest list) (hi : K.Taken t.keys i)
    (hsame : K.same (K.held t.keys i) key = true) :
    (t.others i).Perm (t.entries.filter fun entry => !K.same entry.1 key) := by
  have hperm := entries_taken hK h.sound.sizes hi
  have hpairwise := (hperm.pairwise_iff (fun {a b} hab => by rwa [hK.same_comm])).mp
    (h.entries_pairwise hK)
  have hother : ∀ entry ∈ t.others i, (!K.same entry.1 key) = true := by
    intro entry hmem
    have := (List.pairwise_cons.mp hpairwise).1 entry hmem
    rw [← hK.same_congr_right hsame, hK.same_comm, show K.held t.keys i = (t.slot i).1 from rfl, this]
    rfl
  refine List.Perm.symm ((hperm.filter _).trans ?_)
  rw [List.filter_cons_of_neg (by simp [slot, hsame]), List.filter_eq_self.mpr hother]

/-- Beside the place for a key are the entries under other keys. -/
theorem others_of_seats (hK : K.Lawful) (h : t.AtRest list) (hi : K.Seats t.keys key i) :
    (t.others i).Perm (t.entries.filter fun entry => !K.same entry.1 key) := by
  by_cases ht : K.Taken t.keys i
  · exact h.others_of_taken hK ht (hi.stop.resolve_left fun hv => not_taken.mpr hv ht)
  · obtain ⟨_, hranked⟩ := h.arranged
    have hother : ∀ entry ∈ t.entries, (!K.same entry.1 key) = true := by
      intro entry hmem
      obtain ⟨j, hj, rfl⟩ := (mem_entries hK h.sound.sizes).mp hmem
      have := hranked.not_same_of_seats hK h.sound.isPowerOfTwo hi ht hj
      simpa [slot] using this
    rw [List.filter_eq_self.mpr hother]
    exact (entries_vacant h.sound.sizes hi.lt ht).symm

/-- What storing an entry makes of a table, growth apart. -/
structure Stored (t : Table K ν) (list : List κ) (key : κ) (value : ν) (t' : Table K ν) : Prop where
  rest : t'.AtRest (K.restate key list)
  entries : t'.entries.Perm ((key, value) :: t.entries.filter fun entry => !K.same entry.1 key)
  capacity : t'.capacity = t.capacity
  loadFactor : t'.loadFactor = t.loadFactor

/-- Below the threshold there is a place for every key. -/
theorem exists_seats (hK : K.Lawful) (h : t.AtRest list) (hroom : t.count < t.threshold) (key : κ) :
    ∃ i, K.Seats t.keys key i := by
  obtain ⟨_, hranked⟩ := h.arranged
  obtain ⟨j, hj, hvacant⟩ := h.sound.exists_vacant (hroom.trans_le h.sound.threshold_le)
  exact hranked.exists_seats hK h.sound.isPowerOfTwo hj hvacant key

theorem put (hK : K.Lawful) (h : t.AtRest list) (hkey : K.vacates key = false)
    (hroom : t.count < t.threshold) (hi : K.Seats t.keys key i) (value : ν) :
    Stored t list key value (t.put i key value) := by
  obtain ⟨_, hranked⟩ := h.arranged
  refine ⟨?_, ?_, by simp [Table.put, capacity], rfl⟩
  · exact ⟨h.sound.put hK hi.lt hkey (fun _ => hroom) value,
      hranked.restate hK h.sound.isPowerOfTwo hkey hi⟩
  · exact (entries_put h.sound.sizes hi.lt hkey value).trans ((h.others_of_seats hK hi).cons _)

theorem store (hK : K.Lawful) (h : t.AtRest list) (hkey : K.vacates key = false)
    (hroom : t.count < t.threshold) (value : ν) (events : List TableEvent) :
    ∃ t', Table.store key value ⟨t, events⟩ = .ok () ⟨t', events⟩ ∧ Stored t list key value t' := by
  obtain ⟨i, hi⟩ := h.exists_seats hK hroom key
  exact ⟨t.put i key value, store_ok h.sound.isPowerOfTwo h.sound.sizes hi,
    h.put hK hkey hroom hi value⟩

end AtRest

theorem insertWithin_room (hkey : K.vacates key = false) (hroom : t.count < t.threshold)
    (depth : Nat) :
    insertWithin depth key value ⟨t, events⟩ = store key value ⟨t, events⟩ := by
  cases depth with
  | zero => exact insertWith_room _ hkey hroom
  | succ depth => exact insertWith_room _ hkey hroom

/-! ### Storing in vacant slots -/

/-- An entry goes into a vacant slot of a table that has room for it. -/
structure Settled (t : Table K ν) (key : κ) (value : ν) (t' : Table K ν) : Prop where
  sound : t.Sound
  live : K.vacates key = false
  room : t.count < t.threshold
  slot : ∃ i, K.Seats t.keys key i ∧ ¬ K.Taken t.keys i ∧ t' = t.put i key value

/-- The call stores an entry where there is room and a vacant slot for it. What it does in other
cases is left open. -/
def Settles (again : κ → ν → Action K ν Unit) : Prop :=
  ∀ (t : Table K ν) (key : κ) (value : ν) (t' : Table K ν) (events : List TableEvent),
    Settled t key value t' → again key value ⟨t, events⟩ = .ok () ⟨t', events⟩

theorem Settled.capacity_eq (h : Settled t key value t') : t'.capacity = t.capacity := by
  obtain ⟨_, _, _, rfl⟩ := h.slot
  exact Array.size_setIfInBounds

theorem settles_insertWithin (depth : Nat) : Settles (K := K) (ν := ν) (insertWithin depth) := by
  intro t key value t' events h
  obtain ⟨i, hi, _, rfl⟩ := h.slot
  rw [insertWithin_room h.live h.room]
  exact store_ok h.sound.isPowerOfTwo h.sound.sizes hi

theorem restate_new (hnew : ∀ k ∈ list, K.same k key = false) :
    K.restate key list = list ++ [key] := by
  have hany : ¬ list.any (K.same · key) = true := by simpa using hnew
  rw [restate, if_neg hany]

/-- A key that is new to a table at rest has a vacant slot for its place. -/
theorem AtRest.store_new (hK : K.Lawful) (h : t.AtRest list) (hkey : K.vacates key = false)
    (hnew : ∀ k ∈ list, K.same k key = false) (hroom : t.count < t.threshold) (value : ν) :
    ∃ t', Settled t key value t' ∧ t'.AtRest (list ++ [key]) ∧
      t'.entries.Perm ((key, value) :: t.entries) ∧ t'.capacity = t.capacity ∧
      t'.loadFactor = t.loadFactor := by
  obtain ⟨i, hi⟩ := h.exists_seats hK hroom key
  have hstored := h.put hK hkey hroom hi value
  have hlist {entry : κ × ν} (hmem : entry ∈ t.entries) : K.same entry.1 key = false :=
    hnew entry.1 ((h.mem_list hK).mpr (List.mem_map_of_mem hmem))
  have hvacant : ¬ K.Taken t.keys i := by
    intro ht
    have hsame := hi.stop.resolve_left fun hv => not_taken.mpr hv ht
    have hother := hlist ((mem_entries hK h.sound.sizes).mpr ⟨i, ht, rfl⟩)
    rw [slot, hsame] at hother
    cases hother
  have hentries : (t.entries.filter fun entry => !K.same entry.1 key) = t.entries := by
    rw [List.filter_eq_self]
    intro entry hmem
    rw [hlist hmem]
    rfl
  refine ⟨_, ⟨h.sound, hkey, hroom, i, hi, hvacant, rfl⟩, ?_, ?_, hstored.capacity,
    hstored.loadFactor⟩
  · rw [← restate_new hnew]
    exact hstored.rest
  · rw [← hentries]
    exact hstored.entries

/-! ### Storing many entries -/

theorem AtRest.threshold_congr (h : t.AtRest list) {list'} (h' : t'.AtRest list')
    (hcapacity : t'.capacity = t.capacity) (hfactor : t'.loadFactor = t.loadFactor) :
    t'.threshold = t.threshold := by
  unfold capacity at hcapacity
  rw [h.sound.threshold_eq, h'.sound.threshold_eq, hcapacity, hfactor]

/-- New entries are stored one after the other as far as the threshold allows. -/
theorem AtRest.store_all (hK : K.Lawful) (entries : List (κ × ν))
    (h : t.AtRest list) (hdistinct : entries.Pairwise fun a b => K.same a.1 b.1 = false)
    (hkeys : ∀ entry ∈ entries, K.vacates entry.1 = false)
    (hnew : ∀ entry ∈ entries, ∀ k ∈ list, K.same k entry.1 = false)
    (hroom : t.count + entries.length ≤ t.threshold) :
    ∃ t', (∀ {again : κ → ν → Action K ν Unit}, Settles again → ∀ events,
        entries.forM (fun entry => again entry.1 entry.2) ⟨t, events⟩ = .ok () ⟨t', events⟩) ∧
      t'.AtRest (list ++ entries.map Prod.fst) ∧ t'.entries.Perm (entries ++ t.entries) ∧
      t'.capacity = t.capacity ∧ t'.loadFactor = t.loadFactor := by
  induction entries generalizing t list with
  | nil => exact ⟨t, fun _ _ => rfl, by simpa using h, .refl _, rfl, rfl⟩
  | cons entry entries ih =>
    rw [List.pairwise_cons] at hdistinct
    rw [List.length_cons] at hroom
    obtain ⟨t₁, hsettled, hrest, hperm, hcapacity, hfactor⟩ := h.store_new hK
      (hkeys entry List.mem_cons_self) (hnew entry List.mem_cons_self) (by omega) entry.2
    have hcount : t₁.count = t.count + 1 := by
      rw [hrest.sound.count_eq, hperm.length_eq, List.length_cons, h.sound.count_eq]
    have hthreshold := h.threshold_congr hrest hcapacity hfactor
    have hnew₁ : ∀ other ∈ entries, ∀ k ∈ list ++ [entry.1], K.same k other.1 = false := by
      intro other hother k hk
      rcases List.mem_append.mp hk with hk | hk
      · exact hnew other (List.mem_cons_of_mem _ hother) k hk
      · rw [List.mem_singleton.mp hk]
        exact hdistinct.1 other hother
    obtain ⟨t', hall, hrest', hperm', hcapacity', hfactor'⟩ := ih hrest hdistinct.2
      (fun other hother => hkeys other (List.mem_cons_of_mem _ hother)) hnew₁ (by omega)
    refine ⟨t', fun hagain events => ?_, ?_, ?_, hcapacity'.trans hcapacity,
      hfactor'.trans hfactor⟩
    · exact Call.bind_eq (hagain _ _ _ _ events hsettled) (hall hagain events)
    · rw [List.map_cons, List.append_cons]
      exact hrest'
    · exact hperm'.trans ((hperm.append_left entries).trans List.perm_middle)

/-! ### Growth -/

/-- Growth is due, and no capacity in the range of sizes has a threshold above the count. -/
def Spent (t : Table K ν) : Prop :=
  t.threshold ≤ t.count ∧ ∀ slots ∈ doublings t.capacity, t.loadFactor.threshold slots ≤ t.count

theorem grown?_eq_none {f : LoadFactor} {live capacity : Nat} :
    f.grown? live capacity = none ↔ ∀ slots ∈ doublings capacity, f.threshold slots ≤ live := by
  simp [LoadFactor.grown?, List.find?_eq_none]

/-- Growth goes to the first doubling with room for one entry more. -/
theorem exists_grown {f : LoadFactor} {live k slots : Nat} (hk : k < 64)
    (h : f.grown? live (2 ^ k) = some slots) :
    ∃ n, k < n ∧ n < 64 ∧ slots = 2 ^ n ∧ live < f.threshold (2 ^ n) ∧
      ∀ j, k < j → j < n → f.threshold (2 ^ j) ≤ live := by
  rw [LoadFactor.grown?, doublings_two_pow hk, List.find?_map, Option.map_eq_some_iff] at h
  obtain ⟨n, hn, rfl⟩ := h
  rw [List.find?_range_eq_some] at hn
  obtain ⟨hroom, hmem, hbefore⟩ := hn
  have hlt := List.mem_range.mp hmem
  refine ⟨k + 1 + n, by omega, by omega, rfl, by simpa using hroom, fun j hkj hjn => ?_⟩
  have := hbefore (j - (k + 1)) (by omega)
  simpa [show k + 1 + (j - (k + 1)) = j by omega] using this

/-- What growth makes of a table. The keys are stored anew in slot order. -/
structure Grown (t t' : Table K ν) : Prop where
  rest : t'.AtRest (t.entries.map Prod.fst)
  entries : t'.entries.Perm t.entries
  grown : t.loadFactor.grown? t.count t.capacity = some t'.capacity
  capacity : t.capacity < t'.capacity
  loadFactor : t'.loadFactor = t.loadFactor
  room : t'.count < t'.threshold

/-- Growth that finds no capacity breaks off before it has written anything. -/
theorem growWith_none (again : κ → ν → Action K ν Unit)
    (h : t.loadFactor.grown? t.count t.capacity = none) :
    growWith again ⟨t, events⟩ = .error .capacityOverflow ⟨t, events⟩ := by
  apply Call.bind_eq (Call.view_ok ..)
  simp only [id, h]
  rfl

theorem AtRest.grow (hK : K.Lawful) (h : t.AtRest list) {slots : Nat}
    (hslots : t.loadFactor.grown? t.count t.capacity = some slots) :
    ∃ t', (∀ {again : κ → ν → Action K ν Unit}, Settles again → ∀ events,
        growWith again ⟨t, events⟩ =
          .ok () ⟨t', events ++ [.grew t.capacity t'.capacity t.count]⟩) ∧ Grown t t' := by
  obtain ⟨k, hk, hsize⟩ := h.sound.power
  have hchosen := hslots
  rw [capacity, hsize] at hchosen
  obtain ⟨n, hkn, hn, rfl, hroom, _⟩ := exists_grown hk hchosen
  have hempty : (Table.vacant (K := K) (ν := ν) (2 ^ n) t.loadFactor).AtRest [] :=
    .vacant hK hn t.loadFactor
  have hnone : (Table.vacant (K := K) (ν := ν) (2 ^ n) t.loadFactor).entries = [] :=
    List.length_eq_zero_iff.mp hempty.sound.count_eq.symm
  obtain ⟨t', hall, hrest, hperm, hcapacity, hfactor⟩ := hempty.store_all hK
    t.entries (h.entries_pairwise hK) (fun _ => vacates_of_mem_entries)
    (fun _ _ _ hk => absurd hk List.not_mem_nil) (by
      rw [← h.sound.count_eq]
      simpa [Table.vacant] using hroom.le)
  have hsize' : t'.capacity = 2 ^ n := by rw [hcapacity]; simp [Table.vacant, capacity]
  rw [hnone, List.append_nil] at hperm
  refine ⟨t', fun hagain events => ?_, hrest, hperm, by rw [hslots, hsize'], ?_, hfactor, ?_⟩
  · apply Call.bind_eq (Call.view_ok ..)
    simp only [id, hslots]
    refine Call.bind_eq rfl ?_
    refine Call.bind_eq (hall hagain events) ?_
    rw [hsize']
    rfl
  · rw [hsize', capacity, hsize]
    exact Nat.pow_lt_pow_right (by decide) hkn
  · rw [capacity] at hsize'
    rw [hrest.sound.count_eq, hperm.length_eq, ← h.sound.count_eq, hrest.sound.threshold_eq, hsize',
      hfactor]
    exact hroom

/-! ### The whole call -/

/-- The list that storing begins with: after growth the keys in slot order. -/
def relisted (t : Table K ν) (list : List κ) : List κ :=
  if t.threshold ≤ t.count then t.entries.map Prod.fst else list

/-- The events of storing into a table that it makes into `t'`. -/
def growthEvents (t t' : Table K ν) : List TableEvent :=
  if t.threshold ≤ t.count then [.grew t.capacity t'.capacity t.count] else []

/-- What storing an entry makes of a table. The capacity tells whether the table grew. -/
structure Inserted (t : Table K ν) (list : List κ) (key : κ) (value : ν) (t' : Table K ν) : Prop where
  rest : t'.AtRest (K.restate key (t.relisted list))
  entries : t'.entries.Perm ((key, value) :: t.entries.filter fun entry => !K.same entry.1 key)
  capacity : t'.capacity = t.capacity ↔ t.count < t.threshold
  grown : t.threshold ≤ t.count → t.loadFactor.grown? t.count t.capacity = some t'.capacity
  loadFactor : t'.loadFactor = t.loadFactor

theorem insert_reserved (hkey : K.vacates key = true) (value : ν) :
    insert key value ⟨t, events⟩ = .error .reservedKey ⟨t, events⟩ :=
  insertWith_reserved _ hkey

theorem insert_spent (hkey : K.vacates key = false) (h : t.Spent) (value : ν) :
    insert key value ⟨t, events⟩ = .error .capacityOverflow ⟨t, events⟩ := by
  have hnone := grown?_eq_none.mpr h.2
  exact (insertWith_full _ hkey h.1).trans (Call.bind_error (growWith_none _ hnone))

theorem AtRest.insert (hK : K.Lawful) (h : t.AtRest list) (hkey : K.vacates key = false)
    (hspent : ¬ t.Spent) (value : ν) (events : List TableEvent) :
    ∃ t', Table.insert key value ⟨t, events⟩ = .ok () ⟨t', events ++ growthEvents t t'⟩ ∧
      Inserted t list key value t' := by
  unfold growthEvents
  by_cases hfull : t.threshold ≤ t.count
  · obtain ⟨slots, hslots⟩ := Option.ne_none_iff_exists'.mp
      fun hnone => hspent ⟨hfull, grown?_eq_none.mp hnone⟩
    obtain ⟨t₁, hgrow, hgrown⟩ := h.grow hK hslots
    have hgrow := hgrow (settles_insertWithin 63) events
    obtain ⟨t', hstore, hstored⟩ := hgrown.rest.store hK hkey hgrown.room value
      (events ++ [.grew t.capacity t₁.capacity t.count])
    refine ⟨t', ?_, ?_, hstored.entries.trans ((hgrown.entries.filter _).cons _), ?_,
      fun _ => by rw [hgrown.grown, hstored.capacity], hstored.loadFactor.trans hgrown.loadFactor⟩
    · rw [if_pos hfull, hstored.capacity]
      exact (insertWith_full _ hkey hfull).trans (Call.bind_eq hgrow hstore)
    · rw [relisted, if_pos hfull]
      exact hstored.rest
    · have := hstored.capacity
      have := hgrown.capacity
      omega
  · have hroom : t.count < t.threshold := Nat.lt_of_not_le hfull
    obtain ⟨t', hstore, hstored⟩ := h.store hK hkey hroom value events
    refine ⟨t', ?_, ?_, hstored.entries, ⟨fun _ => hroom, fun _ => hstored.capacity⟩,
      fun hfull' => absurd hfull' hfull, hstored.loadFactor⟩
    · rw [if_neg hfull, List.append_nil]
      exact (insertWithin_room hkey hroom 64).trans hstore
    · rw [relisted, if_neg hfull]
      exact hstored.rest

end SlotArrays.Table
