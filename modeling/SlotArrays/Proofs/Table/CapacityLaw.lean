import Mathlib.Order.Bounds.Basic
import SlotArrays.Keying.Standard
import SlotArrays.Proofs.Table.Gauge

/-! The capacity of a table.

A table grows when an entry is stored, also in place of another one, and to the first
doubling that has room for one entry more than there are. So the capacity is at all
times the least doubling of the first one that `Fits` the sizes at which entries were
stored. The growths that a run tells of lead from the first capacity to the last
(`GrowsTo`), and neither hashes nor values have a part in any of it. -/
namespace SlotArrays.Table
variable {κ ν : Type} {K : Keying κ} [Inhabited ν] {t : Table K ν} {list : List κ}

/-! ### What a request does to the capacity -/

/-- The size of the table when the request stores an entry in it. -/
def Request.storedAt (r : Request K ν) (t : Table K ν) : Option Nat :=
  match r.op, (r.report t).answer with
  | .insert _ _, .ok _ => some t.size
  | _, _ => none

/-- What a request does to the capacity of a table. -/
inductive Paced (t : Table K ν) (r : Request K ν) : Prop
  | kept (unstored : r.storedAt t = none)
      (capacity : (r.report t).held.capacity = t.capacity)
      (events : ∀ event ∈ (r.report t).events, ∃ moved, event = .rehashed moved)
  | stored (op : ∃ key value, r.op = .insert key value) (stored : r.storedAt t = some t.count)
      (fitted : t.loadFactor.fitted? t.count t.capacity = some (r.report t).held.capacity)
      (events : (r.report t).events = growthEvents t (r.report t).held)

theorem AtRest.paced (hK : K.Lawful) (h : t.AtRest list) (r : Request K ν) : Paced t r := by
  obtain ⟨query, F, hF, op⟩ := r
  have houtcome := h.outcome hK hF op
  generalize hreport : step F t op = report at houtcome
  have hr : Request.report ⟨query, F, hF, op⟩ t = report := hreport
  cases houtcome with
  | inserted hkey hspent hinserted =>
    refine .stored ⟨_, _, rfl⟩ (by rw [Request.storedAt, hr]; rfl) ?_ (by rw [hr])
    rw [hr]
    exact hinserted.fitted h.sound
  | @erased q i t' moved hi hsame hremoved =>
    refine .kept (by rw [Request.storedAt, hr]) (by rw [hr]; exact hremoved.capacity) ?_
    intro event hmem
    rw [hr, rehashEvents] at hmem
    split at hmem
    · exact ⟨moved, List.mem_singleton.mp hmem⟩
    · cases hmem
  | _ =>
    have hcapacity := congrArg (fun report => report.held.capacity) hr
    refine .kept (by rw [Request.storedAt, hr]) hcapacity ?_
    intro event hmem
    rw [hr] at hmem
    cases hmem

/-! ### The least capacity -/

/-- The least doubling of `first` whose threshold is above all the sizes. -/
def Fits (f : LoadFactor) (first : Nat) (sizes : List Nat) : Nat → Prop :=
  IsLeast {slots | (∃ k, slots = first * 2 ^ k) ∧ ∀ size ∈ sizes, size < ⌊slots * f.value⌋₊}

namespace Fits
variable {f : LoadFactor} {first size : Nat} {sizes : List Nat} {a n n' slots : Nat}

theorem nil (f : LoadFactor) (first : Nat) : Fits f first [] first := by
  refine ⟨⟨⟨0, by rw [pow_zero, mul_one]⟩, nofun⟩, ?_⟩
  intro slots hslots
  obtain ⟨⟨k, rfl⟩, _⟩ := hslots
  exact Nat.le_mul_of_pos_right first (Nat.two_pow_pos k)

theorem floor_eq (f : LoadFactor) {k : Nat} (hk : k < 64) :
    ⌊((2 ^ k : Nat) : ℚ) * f.value⌋₊ = f.threshold (2 ^ k) := by
  rw [f.threshold_eq_floor hk]
  push_cast
  rfl

/-- A capacity with room for one size more. -/
theorem room (h : Fits f first sizes slots) (hroom : size < ⌊slots * f.value⌋₊) :
    Fits f first (sizes ++ [size]) slots := by
  obtain ⟨⟨hk, hsizes⟩, hleast⟩ := h
  refine ⟨⟨hk, fun s hs => ?_⟩, fun other hother => ?_⟩
  · rcases List.mem_append.mp hs with hs | hs
    · exact hsizes s hs
    · rw [List.mem_singleton.mp hs]
      exact hroom
  · exact hleast ⟨hother.1, fun s hs => hother.2 s (List.mem_append_left _ hs)⟩

/-- A capacity with no room is left for the first doubling that has room. The capacities before
it have none: their thresholds are no greater than the present one, or were tried. -/
theorem grow (h : Fits f (2 ^ a) sizes (2 ^ n)) (hnn' : n < n') (hn' : n' < 64)
    (hfull : f.threshold (2 ^ n) ≤ size) (hroom : size < f.threshold (2 ^ n'))
    (htried : ∀ j, n < j → j < n' → f.threshold (2 ^ j) ≤ size) :
    Fits f (2 ^ a) (sizes ++ [size]) (2 ^ n') := by
  obtain ⟨⟨⟨k, hk⟩, hsizes⟩, _⟩ := h
  rw [← pow_add] at hk
  have hk := Nat.pow_right_injective (le_refl 2) hk
  refine ⟨⟨⟨k + (n' - n), ?_⟩, fun s hs => ?_⟩, fun other hother => ?_⟩
  · rw [← pow_add]
    congr 1
    omega
  · rw [floor_eq f hn']
    rcases List.mem_append.mp hs with hs | hs
    · have := hsizes s hs
      rw [floor_eq f (by omega)] at this
      omega
    · rwa [List.mem_singleton.mp hs]
  · obtain ⟨⟨j, hj⟩, hother⟩ := hother
    rw [← pow_add] at hj
    rw [hj] at hother ⊢
    by_contra hless
    have hless := (Nat.pow_lt_pow_iff_right (by decide)).mp (Nat.lt_of_not_le hless)
    have hlast := hother size (List.mem_append_right _ List.mem_cons_self)
    rw [floor_eq f (by omega)] at hlast
    by_cases hbelow : a + j ≤ n
    · have := f.threshold_mono hbelow (by omega)
      omega
    · have := htried (a + j) (by omega) hless
      omega

/-- Storing an entry keeps the capacity the least one. -/
theorem store (h : Fits f (2 ^ a) sizes (2 ^ n)) (hn : n < 64)
    (hfitted : f.fitted? size (2 ^ n) = some slots) : Fits f (2 ^ a) (sizes ++ [size]) slots := by
  rw [LoadFactor.fitted?] at hfitted
  split at hfitted
  · cases hfitted
    refine h.room ?_
    rwa [floor_eq f hn]
  · obtain ⟨n', hnn', hn', rfl, hroom, htried⟩ := exists_grown hn hfitted
    exact h.grow hnn' hn' (by omega) hroom htried

theorem eq_of_nil (h : Fits f first [] slots) : slots = first := h.unique (nil f first)

/-- Of the sizes the greatest one counts. -/
theorem of_max (h : Fits f first sizes slots) (hmax : sizes.max? = some size) :
    IsLeast {slots | (∃ k, slots = first * 2 ^ k) ∧ size < ⌊slots * f.value⌋₊} slots := by
  obtain ⟨hmem, hle⟩ := List.max?_eq_some_iff.mp hmax
  refine ⟨⟨h.1.1, h.1.2 size hmem⟩, fun other hother => ?_⟩
  exact h.2 ⟨hother.1, fun s hs => (hle s hs).trans_lt hother.2⟩

end Fits

theorem le_of_fitted {f : LoadFactor} {size n slots : Nat} (hn : n < 64)
    (hfitted : f.fitted? size (2 ^ n) = some slots) : 2 ^ n ≤ slots := by
  rw [LoadFactor.fitted?] at hfitted
  split at hfitted
  · cases hfitted
    exact le_refl _
  · obtain ⟨n', hnn', _, rfl, _⟩ := exists_grown hn hfitted
    exact Nat.pow_le_pow_right (by decide) hnn'.le

/-! ### Growths -/

/-- The growths among the events lead from one capacity to another, step by step. -/
inductive GrowsTo : Nat → List TableEvent → Nat → Prop
  | nil {slots : Nat} : GrowsTo slots [] slots
  | grew {old new last live : Nat} {events : List TableEvent} (more : GrowsTo new events last) :
      GrowsTo old (.grew old new live :: events) last
  | rehashed {old last moved : Nat} {events : List TableEvent} (more : GrowsTo old events last) :
      GrowsTo old (.rehashed moved :: events) last

namespace GrowsTo
variable {old new last : Nat} {events more : List TableEvent}

theorem append (h : GrowsTo old events new) (h' : GrowsTo new more last) :
    GrowsTo old (events ++ more) last := by
  induction h with
  | nil => exact h'
  | grew _ ih => exact .grew (ih h')
  | rehashed _ ih => exact .rehashed (ih h')

theorem of_rehashed (h : ∀ event ∈ events, ∃ moved, event = .rehashed moved) :
    GrowsTo old events old := by
  induction events with
  | nil => exact .nil
  | cons event events ih =>
    obtain ⟨moved, rfl⟩ := h event List.mem_cons_self
    exact .rehashed (ih fun event hmem => h event (List.mem_cons_of_mem _ hmem))

end GrowsTo

/-- The events of one request lead from the capacity before it to the one after it. -/
theorem Paced.growsTo {r : Request K ν} (hs : t.Sound) (h : Paced t r) :
    GrowsTo t.capacity (r.report t).events (r.report t).held.capacity := by
  cases h with
  | kept _ hcapacity hevents =>
    rw [hcapacity]
    exact .of_rehashed hevents
  | stored _ _ hfitted hevents =>
    rw [hevents, growthEvents]
    split
    · exact .grew .nil
    · rw [LoadFactor.fitted?, capacity, ← hs.threshold_eq, if_pos (by omega)] at hfitted
      rw [capacity, Option.some.inj hfitted]
      exact .nil

/-- A request tells of one growth at most, and it is one that stores an entry. -/
theorem Paced.once {r : Request K ν} (h : Paced t r) {old new live : Nat}
    (hgrew : .grew old new live ∈ (r.report t).events) :
    (∃ key value, r.op = .insert key value) ∧
      (r.report t).events = [.grew t.capacity (r.report t).held.capacity t.size] := by
  cases h with
  | kept _ _ hevents =>
    obtain ⟨_, he⟩ := hevents _ hgrew
    cases he
  | stored hop _ _ hevents =>
    refine ⟨hop, ?_⟩
    rw [hevents, growthEvents] at hgrew
    split at hgrew
    · rw [hevents, growthEvents, if_pos ‹_›]
      rfl
    · cases hgrew

/-! ### Runs -/

/-- The sizes at which a list of requests stores entries. -/
def storedSizes (t : Table K ν) : List (Request K ν) → List Nat
  | [] => []
  | r :: requests => (r.storedAt t).toList ++ storedSizes (r.report t).held requests

/-- The events of a list of requests. -/
def eventsOf (t : Table K ν) : List (Request K ν) → List TableEvent
  | [] => []
  | r :: requests => (r.report t).events ++ eventsOf (r.report t).held requests

theorem AtRest.fits_run (hK : K.Lawful) {a : Nat} {sizes : List Nat} (h : t.AtRest list)
    (hfits : Fits t.loadFactor (2 ^ a) sizes t.capacity) (requests : List (Request K ν)) :
    Fits t.loadFactor (2 ^ a) (sizes ++ t.storedSizes requests) (t.afterAll requests).capacity := by
  induction requests generalizing t list sizes with
  | nil =>
    rw [storedSizes, List.append_nil]
    exact hfits
  | cons r requests ih =>
    obtain ⟨n, hn, hsize⟩ := h.sound.power
    have hnext : Fits (r.report t).held.loadFactor (2 ^ a) (sizes ++ (r.storedAt t).toList)
        (r.report t).held.capacity := by
      rw [h.loadFactor_report hK r]
      rw [capacity, hsize] at hfits
      cases h.paced hK r with
      | kept hnone hcapacity _ =>
        rw [hnone, hcapacity, capacity, hsize, Option.toList_none, List.append_nil]
        exact hfits
      | stored _ hsome hfitted _ =>
        rw [capacity, hsize] at hfitted
        rw [hsome]
        exact hfits.store hn hfitted
    have hrun := ih (h.remember hK r) hnext
    rw [h.loadFactor_report hK r, List.append_assoc] at hrun
    exact hrun

theorem AtRest.growsTo_run (hK : K.Lawful) (h : t.AtRest list) (requests : List (Request K ν)) :
    GrowsTo t.capacity (t.eventsOf requests) (t.afterAll requests).capacity := by
  induction requests generalizing t list with
  | nil => exact .nil
  | cons r requests ih => exact ((h.paced hK r).growsTo h.sound).append (ih (h.remember hK r))

/-- How the capacity of a table goes over a run. -/
structure CapacityLaw (t : Table K ν) (requests : List (Request K ν)) : Prop where
  /-- As long as nothing has been stored it is the first one. -/
  first : t.storedSizes requests = [] → (t.afterAll requests).capacity = t.capacity
  /-- From then on it is the least doubling whose threshold is above the greatest size at which
  an entry was stored. -/
  least : ∀ peak, (t.storedSizes requests).max? = some peak →
    IsLeast {slots | (∃ k, slots = t.capacity * 2 ^ k) ∧ peak < ⌊slots * t.loadFactor.value⌋₊}
      (t.afterAll requests).capacity
  grows : ∀ r : Request K ν,
    (t.afterAll requests).capacity ≤ (r.report (t.afterAll requests)).held.capacity
  chain : GrowsTo t.capacity (t.eventsOf requests) (t.afterAll requests).capacity
  /-- A request tells of one growth at most, and of the size before it. -/
  once : ∀ (r : Request K ν) (old new live : Nat),
    .grew old new live ∈ (r.report (t.afterAll requests)).events →
    (∃ key value, r.op = .insert key value) ∧ (r.report (t.afterAll requests)).events =
      [.grew (t.afterAll requests).capacity (r.report (t.afterAll requests)).held.capacity
        (t.afterAll requests).size]

/-- **The capacity is the least doubling of the first one with room for what was there when
entries were stored.** Tables made alike, whose runs store and drop the same keys, have the
same capacity, whatever the hashes and the values. -/
theorem capacity_run (hK : K.Lawful) {making : TableMaking} (hmake : make making = .ok t)
    (requests : List (Request K ν)) :
    CapacityLaw t requests ∧
    ∀ {ν' : Type} [Inhabited ν'] {K' : Keying κ}, K'.Lawful → K'.same = K.same →
      K'.reserved = K.reserved → ∀ {t' : Table K' ν'}, make making = .ok t' →
      ∀ requests' : List (Request K' ν'),
        requests'.map Request.keyChange = requests.map Request.keyChange →
        (t'.afterAll requests').capacity = (t.afterAll requests).capacity := by
  have h := AtRest.make hK hmake
  have hafter := h.run hK requests
  refine ⟨?_, fun hK' hsame hreserved _ hmake' _ hchanges =>
    capacity_congr hK hK' hsame hreserved hmake hmake' hchanges⟩
  · obtain ⟨a, ha, hsize⟩ := h.sound.power
    have hnone : Fits t.loadFactor (2 ^ a) [] t.capacity := by
      rw [capacity, hsize]
      exact .nil _ _
    have hfits := h.fits_run hK hnone requests
    rw [List.nil_append, ← hsize] at hfits
    refine ⟨fun hnone => ?_, fun peak hpeak => hfits.of_max hpeak, fun r => ?_,
      h.growsTo_run hK requests, fun r _ _ _ => (hafter.paced hK r).once⟩
    · rw [hnone] at hfits
      exact hfits.eq_of_nil
    · cases hafter.paced hK r with
      | kept _ hcapacity _ => exact hcapacity.ge
      | stored _ _ hfitted _ =>
        obtain ⟨n, hn, hsize⟩ := hafter.sound.power
        rw [capacity, hsize] at hfitted ⊢
        exact le_of_fitted hn hfitted

/-- One slot, and a key that is stored twice and removed: the table grows to two slots and to
four. Under a hash that is always 0, and with other values, it does the same. -/
theorem capacity_run_of_overwrite :
    CapacityLaw (vacant 1 .default : Table Keying.wang Int32)
      [.plain (Keying.plain_lawful _ _) (.insert 1 10),
        .plain (Keying.plain_lawful _ _) (.insert 1 20),
        .plain (Keying.plain_lawful _ _) (.erase 1)] ∧
    ((vacant 1 .default : Table (Keying.plain (0 : Int32) fun _ => 0) String).afterAll
      [.plain (Keying.plain_lawful _ _) (.insert 1 "a"),
        .plain (Keying.plain_lawful _ _) (.insert 1 "b"),
        .plain (Keying.plain_lawful _ _) (.erase 1)]).capacity = 4 := by
  have hwang : Keying.wang.Lawful := Keying.plain_lawful _ _
  have hzero : (Keying.plain (0 : Int32) fun _ => 0).Lawful := Keying.plain_lawful _ _
  have hmake : make (K := Keying.wang) (ν := Int32) (.capacity 1) = .ok (vacant 1 .default) := rfl
  have hmake' : make (K := Keying.plain (0 : Int32) fun _ => 0) (ν := String) (.capacity 1) =
      .ok (vacant 1 .default) := rfl
  obtain ⟨hlaw, halike⟩ := capacity_run hwang hmake
    [.plain hwang (.insert 1 10), .plain hwang (.insert 1 20), .plain hwang (.erase 1)]
  have hcapacity := halike hzero rfl rfl hmake'
    [.plain hzero (.insert 1 "a"), .plain hzero (.insert 1 "b"), .plain hzero (.erase 1)] rfl
  have hfour : ((vacant 1 .default : Table Keying.wang Int32).afterAll
      [.plain (Keying.plain_lawful _ _) (.insert 1 10),
        .plain (Keying.plain_lawful _ _) (.insert 1 20),
        .plain (Keying.plain_lawful _ _) (.erase 1)]).capacity = 4 := by decide +kernel
  exact ⟨hlaw, hcapacity.trans hfour⟩

end SlotArrays.Table
