import SlotArrays.Keying.Standard
import SlotArrays.Proofs.Table.Runs

/-! What holds of every table that a run comes to.

`Invariant` says what a table looks like between calls: the shape of its arrays, what
count and threshold count, that no key is stored twice or out of reach of its probes,
and that it is full only if it was asked to be. A table at rest has it, so every run
keeps it. A table at rest is also the layout of the keys in the run's history, so that
keys which have been removed leave no trace in it. -/
namespace SlotArrays.Table
open Keying SlotCircle
variable {κ ν : Type} {K : Keying κ} [Inhabited ν] {t : Table K ν} {list : List κ}

/-- A table between calls, made with a load factor of `asked`. -/
structure Invariant (t : Table K ν) (asked : Single) : Prop where
  sizes : t.values.size = t.keys.size
  power : t.capacity.isPowerOfTwo
  count : t.count = t.keys.countP fun key => !K.vacates key
  threshold : t.threshold = ⌊t.capacity * t.loadFactor.value⌋₊
  count_le : t.count ≤ t.threshold
  threshold_le : t.threshold ≤ t.capacity
  loadFactor : t.loadFactor.single = asked
  /-- No two slots hold equal keys. -/
  distinct : ∀ i j, K.Taken t.keys i → K.Taken t.keys j →
    K.same (K.held t.keys i) (K.held t.keys j) = true → i = j
  /-- From home to the slot of a key every slot is taken. -/
  reached : ∀ i, K.Taken t.keys i → ∀ n,
    n < (i + t.capacity - K.home t.capacity (K.held t.keys i)) % t.capacity →
    K.Taken t.keys ((K.home t.capacity (K.held t.keys i) + n) % t.capacity)
  vacant : ∀ i, i < t.capacity → ¬ K.Taken t.keys i → t.values[i]? = some default
  room : t.count < t.capacity ∨ asked = .one

theorem count_eq_countP (h : t.Sound) : t.count = t.keys.countP fun key => !K.vacates key := by
  have hkeys : t.slots.map Prod.fst = t.keys.toList := by
    rw [slots, List.map_fst_zip]
    simp [h.sizes]
  have hstored : (stored K : κ × ν → Bool) = (fun key => !K.vacates key) ∘ Prod.fst := by
    funext entry
    rfl
  rw [h.count_eq, entries_eq, ← List.countP_eq_length_filter, hstored, ← List.countP_map, hkeys,
    Array.countP_toList]

theorem AtRest.invariant (hK : K.Lawful) (h : t.AtRest list) :
    t.Invariant t.loadFactor.single := by
  obtain ⟨_, hranked⟩ := h.arranged
  obtain ⟨k, hk, hsize⟩ := h.sound.power
  have hs : t.capacity.isPowerOfTwo := h.sound.isPowerOfTwo
  refine ⟨h.sound.sizes, hs, count_eq_countP h.sound, ?_, h.sound.count_le, h.sound.threshold_le, rfl,
    h.injective hK, fun i hi n hn => ?_, fun i hi hvacant => ?_, ?_⟩
  · rw [h.sound.threshold_eq, capacity, hsize, t.loadFactor.threshold_eq_floor hk]
    push_cast
    rfl
  · have hh := K.home_lt hs (K.held t.keys i)
    rw [← ahead_eq_mod hh (hi.lt hK)] at hn
    have hlt := ahead_lt hh (hi.lt hK)
    have hpass : Passes t.capacity (K.home t.capacity (K.held t.keys i)) i
        (wrap t.capacity (K.home t.capacity (K.held t.keys i) + n)) := by
      rw [Passes, ahead_wrap hs hh (hn.trans hlt)]
      exact hn
    rw [← wrap_eq_mod hs]
    exact (hranked.ordered _ i (wrap_lt hs _) hi hpass).1
  · have hvalue : i < t.values.size := by rwa [h.sound.sizes]
    have := h.sound.vacant_value i hvacant
    rw [Array.getD_eq_getD_getElem?, Array.getElem?_eq_getElem hvalue, Option.getD_some] at this
    rw [Array.getElem?_eq_getElem hvalue, this]
  · by_cases hone : t.loadFactor.single = .one
    · exact .inr hone
    · have := t.loadFactor.threshold_lt hk hone
      have := h.sound.threshold_eq
      have := h.sound.count_le
      rw [← hsize] at *
      exact .inl (by unfold capacity; omega)

/-- A table at rest is the layout of its list. -/
theorem AtRest.keys_eq (hK : K.Lawful) (h : t.AtRest list) : t.keys = K.layout t.capacity list := by
  obtain ⟨_, hranked⟩ := h.arranged
  exact hranked.eq_layout hK h.sound.isPowerOfTwo

theorem AtRest.capacity_erase {θ : Type} {F : Form K θ} (hK : K.Lawful) (hF : F.Lawful)
    (h : t.AtRest list) (q : θ) : (step F t (.erase q)).held.capacity = t.capacity := by
  have houtcome := h.outcome hK hF (.erase q)
  generalize step F t (.erase q) = report at houtcome
  cases houtcome with
  | erased hi hsame hremoved => exact hremoved.capacity
  | notErased hother => rfl

/-- **Every table that a run comes to has the invariant**, with the load factor that the
table was made with. -/
theorem invariant_run (hK : K.Lawful) {making : TableMaking} (hmake : make making = .ok t)
    (requests : List (Request K ν)) :
    (t.afterAll requests).Invariant making.asConfig.loadFactor := by
  have h := AtRest.make hK hmake
  have hinvariant := (h.run hK requests).invariant hK
  obtain ⟨f, hf, rfl⟩ := make_ok hmake
  rw [h.loadFactor_run hK requests] at hinvariant
  rw [← hf]
  exact hinvariant

/-- A table of two slots, filled and then with one entry less. -/
theorem invariant_run_of_full :
    ((vacant 2 ⟨.one, by decide⟩ : Table Keying.wang Int32).afterAll
      [.plain (plain_lawful _ _) (.insert 1 10), .plain (plain_lawful _ _) (.insert 3 30),
        .plain (plain_lawful _ _) (.erase 1)]).Invariant .one :=
  invariant_run (plain_lawful _ _) (show make (.capacityAndLoadFactor 2 .one) = .ok _ from rfl) _

/-- **Keys lie as if those of the history had been placed one after the other.** Removing
a key leaves the slots as if it had never been there, from a full table as well. -/
theorem keys_run (hK : K.Lawful) {making : TableMaking} (hmake : make making = .ok t)
    (requests : List (Request K ν)) :
    (t.afterAll requests).keys =
      K.layout (t.afterAll requests).capacity (t.history [] requests) ∧
    ∀ {θ : Type} (F : Form K θ), F.Lawful → ∀ q,
      (step F (t.afterAll requests) (.erase q)).held.keys =
        K.layout (t.afterAll requests).capacity
          ((t.history [] requests).filter fun key => !F.same (F.view key) q) := by
  have h := (AtRest.make hK hmake).run hK requests
  refine ⟨h.keys_eq hK, fun F hF q => ?_⟩
  rw [← h.capacity_erase hK hF q]
  exact (h.remember hK ⟨_, F, hF, .erase q⟩).keys_eq hK

/-- All keys hash alike. Storing the third one has the table grow from two slots to four. -/
theorem keys_run_of_grown :
    ((vacant 2 ⟨.one, by decide⟩ : Table (plain (0 : Int32) fun _ => 0) Int32).afterAll
      [.plain (plain_lawful _ _) (.insert 1 10), .plain (plain_lawful _ _) (.insert 2 20),
        .plain (plain_lawful _ _) (.insert 3 30), .plain (plain_lawful _ _) (.erase 1)]).keys =
      (plain (0 : Int32) fun _ => 0).layout 4 [2, 3] := by
  have hmake : make (K := plain (0 : Int32) fun _ => 0) (ν := Int32)
      (.capacityAndLoadFactor 2 .one) = .ok (vacant 2 ⟨.one, by decide⟩) := rfl
  refine (keys_run (plain_lawful _ _) hmake _).1.trans ?_
  decide +kernel

end SlotArrays.Table
