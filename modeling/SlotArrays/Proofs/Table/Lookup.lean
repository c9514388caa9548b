import SlotArrays.Proofs.Table.Growth

/-! Looking up in a table at rest.

A lookup, in any form of the keys, finds the slot of the entry that it asks for, if
there is one, and else comes back with nothing, from a full table as well
(`find_cases`). The calls built on it answer accordingly, and none of them moves an
entry; `modify` writes the value in the slot that was found (`revalued`). -/
namespace SlotArrays.Table
open Keying SlotCircle
variable {κ ν θ : Type} {K : Keying κ} {t : Table K ν} {list : List κ} {events : List TableEvent}
  {F : Form K θ} {q : θ} {i : Nat}

/-! ### Calls built on a lookup -/

/-- A value written in slot `i`. -/
def revalued (t : Table K ν) (i : Nat) (value : ν) : Table K ν :=
  {t with values := t.values.setIfInBounds i value}

/-- The slot keeps its key, so this is to put the key there again. -/
theorem revalued_eq_put (hK : K.Lawful) (hi : K.Taken t.keys i) (value : ν) :
    t.revalued i value = t.put i (K.held t.keys i) value := by
  have hkeys : t.keys.setIfInBounds i (K.held t.keys i) = t.keys := by
    rw [Array.setIfInBounds_def, dif_pos (hi.lt hK), held_eq (hi.lt hK)]
    exact Array.set_getElem_self (hi.lt hK)
  rw [put, hkeys, if_pos hi]
  rfl

theorem get_missing (hfind : find F q ⟨t, events⟩ = .ok none ⟨t, events⟩) :
    get F q ⟨t, events⟩ = .ok (.error .keyNotFound) ⟨t, events⟩ :=
  Call.bind_eq hfind rfl

theorem modify_missing (f : ν → ν) (hfind : find F q ⟨t, events⟩ = .ok none ⟨t, events⟩) :
    modify F q f ⟨t, events⟩ = .ok (.error .keyNotFound) ⟨t, events⟩ :=
  Call.bind_eq hfind rfl

theorem contains_eq {found : Option Nat}
    (hfind : find F q ⟨t, events⟩ = .ok found ⟨t, events⟩) :
    contains F q ⟨t, events⟩ = .ok found.isSome ⟨t, events⟩ :=
  Call.bind_eq hfind rfl

variable [Inhabited ν]

theorem get_found (hi : i < t.values.size)
    (hfind : find F q ⟨t, events⟩ = .ok (some i) ⟨t, events⟩) :
    get F q ⟨t, events⟩ = .ok (.ok (t.slot i).2) ⟨t, events⟩ := by
  apply Call.bind_eq hfind
  exact Call.bind_eq (valueAt_ok hi) rfl

theorem modify_found (hi : i < t.values.size) (f : ν → ν)
    (hfind : find F q ⟨t, events⟩ = .ok (some i) ⟨t, events⟩) :
    modify F q f ⟨t, events⟩ =
      .ok (.ok (t.slot i).2) ⟨t.revalued i (f (t.slot i).2), events⟩ := by
  apply Call.bind_eq hfind
  apply Call.bind_eq (valueAt_ok hi)
  exact Call.bind_eq (writeValue_ok hi) rfl

/-! ### What is found -/

namespace AtRest

/-- The entry asked for is found where it stands: the slots before it are taken, by others. -/
theorem find_some (hK : K.Lawful) (hF : F.Lawful) (h : t.AtRest list) (hi : K.Taken t.keys i)
    (hsame : F.same (F.view (K.held t.keys i)) q = true) (events : List TableEvent) :
    find F q ⟨t, events⟩ = .ok (some i) ⟨t, events⟩ := by
  obtain ⟨_, hranked⟩ := h.arranged
  have hprobe : Probe.find F t.keys q = .ok (some i) := by
    rw [Probe.find_eq h.sound.isPowerOfTwo (hi.lt hK) (.inr hsame), if_pos hi]
    intro j hj hpass
    rw [hF.hash_of_same hsame] at hpass
    have hj := (hranked.ordered j i hj hi hpass).1
    refine ⟨hj, Bool.eq_false_iff.mpr fun hj' => ?_⟩
    rw [hF.same_view_left hsame] at hj'
    have he := h.injective hK j i hj hi hj'
    exact not_passes_self _ _ _ (he ▸ hpass)
  exact Call.bind_eq (Call.view_ok ..) (Call.lift_ok hprobe)

/-- Where there is no such entry a lookup ends at a vacant slot or gives up after a lap. -/
theorem find_none (h : t.AtRest list)
    (hother : ∀ i, K.Taken t.keys i → F.same (F.view (K.held t.keys i)) q = false)
    (events : List TableEvent) :
    find F q ⟨t, events⟩ = .ok none ⟨t, events⟩ := by
  have hs := h.sound.isPowerOfTwo
  have hprobe : Probe.find F t.keys q = .ok none := by
    by_cases hfull : ∃ j, j < t.keys.size ∧ ¬ K.Taken t.keys j
    · obtain ⟨j, hj, hvacant⟩ := hfull
      have hh : Probe.home t.keys.size (F.hash q) < t.keys.size := wrap_lt hs _
      obtain ⟨i, hi, hvacant, hpassed⟩ := exists_first_vacant hs hj hvacant _ hh
      rw [Probe.find_eq hs hi (.inl (not_taken.mp hvacant)), if_neg hvacant]
      intro k hk hpass
      have hk := hpassed k hk hpass
      exact ⟨hk, hother k hk⟩
    · push Not at hfull
      exact Probe.find_full hs fun j hj => ⟨hfull j hj, hother j (hfull j hj)⟩
  exact Call.bind_eq (Call.view_ok ..) (Call.lift_ok hprobe)

/-- A lookup finds what is there. -/
theorem find_cases (hK : K.Lawful) (hF : F.Lawful) (h : t.AtRest list) (q : θ)
    (events : List TableEvent) :
    (∃ i, K.Taken t.keys i ∧ F.same (F.view (K.held t.keys i)) q = true ∧
      find F q ⟨t, events⟩ = .ok (some i) ⟨t, events⟩) ∨
    (∀ i, K.Taken t.keys i → F.same (F.view (K.held t.keys i)) q = false) ∧
      find F q ⟨t, events⟩ = .ok none ⟨t, events⟩ := by
  by_cases hex : ∃ i, K.Taken t.keys i ∧ F.same (F.view (K.held t.keys i)) q = true
  · obtain ⟨i, hi, hsame⟩ := hex
    exact .inl ⟨i, hi, hsame, h.find_some hK hF hi hsame events⟩
  · have hother : ∀ i, K.Taken t.keys i → F.same (F.view (K.held t.keys i)) q = false :=
      fun i hi => Bool.eq_false_iff.mpr fun hsame => hex ⟨i, hi, hsame⟩
    exact .inr ⟨hother, h.find_none hother events⟩

end AtRest

theorem AtRest.revalued (hK : K.Lawful) (h : t.AtRest list) (hi : K.Taken t.keys i) (value : ν) :
    (t.revalued i value).AtRest list := by
  refine ⟨?_, h.arranged⟩
  rw [revalued_eq_put hK hi]
  exact h.sound.put hK (hi.lt hK) hi (fun hvacant => absurd hi hvacant) value

theorem entries_revalued (hK : K.Lawful) (h : t.Sound) (hi : K.Taken t.keys i) (value : ν) :
    (t.revalued i value).entries.Perm ((K.held t.keys i, value) :: t.others i) := by
  rw [revalued_eq_put hK hi]
  exact entries_put h.sizes (hi.lt hK) hi value

end SlotArrays.Table
