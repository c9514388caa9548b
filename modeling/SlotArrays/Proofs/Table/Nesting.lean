import SlotArrays.Keying.Standard
import SlotArrays.Proofs.Table.Runs

/-! Storing within other calls.

Growth and the walk behind a removal both store entries again, with calls that could
themselves grow the table while it is being filled or walked through. They never do.
`settle` is a call that could not: it knows nothing of growth and breaks off unless there
is room below the threshold and a vacant slot for the entry. With `settle` for the inner
call, growth and removal come to the same as they are (`Unnested`), whatever `settle` breaks
off with; so none of the inner calls is one that it would break off. The walk may then as
well ask for the number of slots at each step (`rehashAnew`). -/
namespace SlotArrays.Table
open Keying
variable {κ ν θ : Type} {K : Keying κ} [Inhabited ν]

/-- Stores an entry in a vacant slot and counts it. Where the key is the reserved one, where there
is no room or where the entry would replace another, breaks off. -/
def settle (fault : Fault) (key : κ) (value : ν) : Action K ν Unit := do
  let t ← Call.view id
  match Probe.seat K t.keys key with
  | .ok i =>
    if K.vacates key = false ∧ t.count < t.threshold ∧ t.count < t.capacity ∧ ¬ K.Taken t.keys i then
      Call.change fun t => {t with
        keys := t.keys.setIfInBounds i key
        values := t.values.setIfInBounds i value
        count := t.count + 1}
    else Call.fail fault
  | .error _ => Call.fail fault

/-- The loop of the walk, with the number of slots that the table has at each step. -/
def walkAnew (insert : κ → ν → Action K ν Unit) : Nat → Nat → Nat → Action K ν Nat
  | 0, _, _ => Call.fail .endlessWalk
  | steps + 1, i, moved => do
    if K.vacates (← keyAt i) then return moved
    else
      let (key, value) ← takeSlot i
      insert key value
      walkAnew insert steps (wrap (← Call.view capacity) (i + 1)) (moved + 1)

/-- The walk behind a vacated slot, with the number of slots that the table has at each step. -/
def rehashAnew (insert : κ → ν → Action K ν Unit) (i : Nat) : Action K ν Unit :=
  rehashAfterWith (fun _ => walkAnew insert) i

variable {t t' : Table K ν} {list : List κ} {events : List TableEvent} {i i' : Nat}
  {log : List (κ × ν)} {again : κ → ν → Action K ν Unit} {F : Form K θ} {q : θ}

/-! ### Inner calls -/

theorem settles_settle (fault : Fault) : Settles (K := K) (ν := ν) (settle fault) := by
  intro t key value t' events h
  obtain ⟨i, hi, hvacant, rfl⟩ := h.slot
  have hcapacity : t.count < t.capacity := h.room.trans_le h.sound.threshold_le
  apply Call.bind_eq (Call.view_ok ..)
  simp only [id, Probe.seat_eq h.sound.isPowerOfTwo hi]
  rw [if_pos ⟨h.live, h.room, hcapacity, hvacant⟩, put, if_neg hvacant]
  rfl

theorem Resettled.walkAnew_eq (hK : K.Lawful) (hagain : Settles again) (h : Resettled t i log t' i')
    (hlt : i' < t'.capacity) (hvacant : ¬ K.Taken t'.keys i') {steps : Nat}
    (hsteps : log.length < steps) (moved : Nat) :
    walkAnew again steps i moved ⟨t, events⟩ = .ok (moved + log.length) ⟨t', events⟩ := by
  induction h generalizing steps moved with
  | nil t i =>
    obtain ⟨steps, rfl⟩ := Nat.exists_eq_add_of_lt hsteps
    apply Call.bind_eq (keyAt_ok hlt)
    rw [if_pos (not_taken.mp hvacant)]
    rfl
  | @cons t _ _ i _ _ sound taken settled _ ih =>
    obtain ⟨steps, rfl⟩ := Nat.exists_eq_add_of_lt hsteps
    apply Call.bind_eq (keyAt_ok (taken.lt hK))
    rw [if_neg fun hv => not_taken.mpr hv taken]
    apply Call.bind_eq (takeSlot_ok hK sound taken)
    apply Call.bind_eq (hagain _ _ _ _ events settled)
    apply Call.bind_eq (Call.view_ok ..)
    rw [ih hlt hvacant (by rw [List.length_cons]; omega), List.length_cons, Nat.add_assoc,
      Nat.add_comm 1]

theorem Resettled.rehashAnew_eq (hK : K.Lawful) (hagain : Settles again)
    (h : Resettled (t.cleared i) (wrap t.capacity (i + 1)) log t' i')
    (hlog : log.length < 2 * t.capacity) (hlt : i' < t'.capacity) (hvacant : ¬ K.Taken t'.keys i') :
    rehashAnew again i ⟨t.cleared i, events⟩ = .ok () ⟨t', events ++ rehashEvents log.length⟩ := by
  apply rehashAfterWith_ok
  rw [capacity_cleared, ← Nat.zero_add log.length]
  exact h.walkAnew_eq hK hagain hlt hvacant hlog 0

/-! ### The calls around them -/

/-- Growth comes to the same with every inner call that stores where there is room. -/
theorem AtRest.growWith_congr (hK : K.Lawful) (h : t.AtRest list)
    {again' : κ → ν → Action K ν Unit} (hagain : Settles again) (hagain' : Settles again')
    (events : List TableEvent) : growWith again ⟨t, events⟩ = growWith again' ⟨t, events⟩ := by
  cases hslots : t.loadFactor.grown? t.count t.capacity with
  | none => rw [growWith_none _ hslots, growWith_none _ hslots]
  | some slots =>
    obtain ⟨t', hgrow, _⟩ := h.grow hK hslots
    rw [hgrow hagain events, hgrow hagain' events]

theorem AtRest.erase_eq (hK : K.Lawful) (hF : F.Lawful) (h : t.AtRest list)
    (hagain : Settles again) (q : θ) (events : List TableEvent) :
    erase F q ⟨t, events⟩ = eraseWith (rehashAnew again) F q ⟨t, events⟩ := by
  rcases h.find_cases hK hF q events with ⟨i, hi, hsame, hfind⟩ | ⟨hother, hfind⟩
  · obtain ⟨t', log, stop, hwalk, hlog, hstop, hvacant, _⟩ := h.walk hK hi
    have hrehashes := hwalk.rehashes hK (capacity_cleared t i) events
    have hrehash := Table.rehashAfter_ok hrehashes hlog hstop hvacant
    have hanew : rehashAnew again i ⟨t.cleared i, events⟩ =
        .ok () ⟨t', events ++ rehashEvents log.length⟩ :=
      hwalk.rehashAnew_eq hK hagain hlog hstop hvacant
    rw [erase, eraseWith_found hK h.sound hi hfind hrehash,
      eraseWith_found hK h.sound hi hfind hanew]
  · rw [erase, eraseWith_missing hfind, eraseWith_missing hfind]

/-- No call on the table begins a growth within the loop of another. -/
structure Unnested (F : Form K θ) (t : Table K ν) : Prop where
  /-- Growth finds a vacant slot below the new threshold for every entry. -/
  insert : ∀ fault key value events, Table.insert key value ⟨t, events⟩ =
    insertWith (growWith (settle fault)) key value ⟨t, events⟩
  /-- So does the walk, and at every step it has the slots that it had at first. -/
  erase : ∀ fault q events, Table.erase F q ⟨t, events⟩ =
    eraseWith (rehashAnew (settle fault)) F q ⟨t, events⟩
  erased : ∀ q, ∃ present t' moved,
    step F t (.erase q) = ⟨.ok (.truth present), t', if 0 < moved then [.rehashed moved] else []⟩ ∧
      t'.capacity = t.capacity ∧ t'.threshold = t.threshold
  grown : ∀ slots, t.loadFactor.grown? t.count t.capacity = some slots → ∃ t',
    (∀ depth events, growWith (insertWithin depth) ⟨t, events⟩ =
      .ok () ⟨t', events ++ [.grew t.capacity slots t.count]⟩) ∧
    t'.capacity = slots ∧ t'.count = t.count ∧ t'.count < t'.threshold

theorem AtRest.unnested (hK : K.Lawful) (hF : F.Lawful) (h : t.AtRest list) : Unnested F t := by
  refine ⟨fun fault key value events => ?_, fun fault q events => ?_, fun q => ?_,
    fun slots hslots => ?_⟩
  · exact insertWith_congr
      (h.growWith_congr hK (settles_insertWithin 63) (settles_settle fault) events) key value
  · exact h.erase_eq hK hF (settles_settle fault) q events
  · have houtcome := h.outcome hK hF (.erase q)
    generalize step F t (.erase q) = report at houtcome ⊢
    cases houtcome with
    | erased hi hsame hremoved =>
      exact ⟨true, _, _, rfl, hremoved.capacity,
        h.threshold_congr hremoved.rest hremoved.capacity hremoved.loadFactor⟩
    | notErased hother => exact ⟨false, t, 0, rfl, rfl, rfl⟩
  · obtain ⟨t', hgrow, hgrown⟩ := h.grow hK hslots
    have hcapacity : t'.capacity = slots := by
      rw [hgrown.grown] at hslots
      exact Option.some.inj hslots
    refine ⟨t', fun depth events => ?_, hcapacity, ?_, hgrown.room⟩
    · rw [← hcapacity]
      exact hgrow (settles_insertWithin depth) events
    · rw [hgrown.rest.sound.count_eq, hgrown.entries.length_eq, h.sound.count_eq]

/-- **No growth begins within a growth or a removal**: whatever these store again goes into a
vacant slot below the threshold. -/
theorem unnested_run (hK : K.Lawful) (hF : F.Lawful) {making : TableMaking}
    (hmake : make making = .ok t) (requests : List (Request K ν)) :
    Unnested F (t.afterAll requests) :=
  ((AtRest.make hK hmake).run hK requests).unnested hK hF

/-- A load factor of 1/8. The first key has the table grow from two slots to eight, where it
fills all the room that there is. -/
theorem unnested_run_of_sparse :
    Unnested Keying.wang.self ((vacant 2 ⟨⟨0x3e000000⟩, by decide⟩ : Table Keying.wang Int32).afterAll
      [.plain (plain_lawful _ _) (.insert 1 10)]) := by
  have hmake : make (K := Keying.wang) (ν := Int32) (.capacityAndLoadFactor 2 ⟨0x3e000000⟩) =
      .ok (vacant 2 ⟨⟨0x3e000000⟩, by decide⟩) := rfl
  exact unnested_run (plain_lawful _ _) (plain_lawful _ _).self hmake _

end SlotArrays.Table
