import SlotArrays.Probe
import SlotArrays.Proofs.SlotCircle

/-! Where probes end.

Over an array of keys, `held` is the key in a slot, `Taken` says that the slot is
not vacant, and `home` is where the probes for a key begin. A probe goes from slot
to slot and does not know how far. `scan` is that way alone: it is told at which
keys to stop, and notes the slots that it reads. A lookup and the search for a
place are both scans, so what there is to say of their way is said once: a scan
reads the slots in the order of `ahead` from where it begins (`scan_first`,
`scan_out`), and ends at slot `i` when it would stop there and at none of the
slots that it `Passes` before (`scan_end`). From this are `seat_eq` for a place to
store, `find_eq` for a lookup, and `find_full` for the lookup that comes around to
where it began. -/
namespace SlotArrays
open SlotCircle

/-! ### Lawful keys -/

namespace Keying.Lawful
variable {κ : Type} {K : Keying κ} {a b c : κ}

theorem same_comm (hK : K.Lawful) (a b : κ) : K.same a b = K.same b a :=
  Bool.eq_iff_iff.mpr ⟨hK.symm, hK.symm⟩

theorem same_congr (hK : K.Lawful) (h : K.same a b = true) (c : κ) : K.same a c = K.same b c :=
  Bool.eq_iff_iff.mpr ⟨hK.trans (hK.symm h), hK.trans h⟩

theorem same_congr_right (hK : K.Lawful) (h : K.same a b = true) (c : κ) :
    K.same c a = K.same c b := by
  rw [hK.same_comm c a, hK.same_comm c b, hK.same_congr h]

theorem vacates_congr (hK : K.Lawful) (h : K.same a b = true) : K.vacates a = K.vacates b :=
  hK.same_congr h K.reserved

theorem vacates_reserved (hK : K.Lawful) : K.vacates K.reserved = true := hK.refl _

end Keying.Lawful

namespace Form.Lawful
variable {κ θ : Type} {K : Keying κ} {F : Form K θ} {a b : κ} {q : θ}

theorem same_view_left (hF : F.Lawful) (h : F.same (F.view a) q = true) (b : κ) :
    F.same (F.view b) q = K.same b a := by
  rw [← hF.same_view]
  exact Bool.eq_iff_iff.mpr ⟨fun hb => hF.trans hb (hF.symm h), fun hb => hF.trans hb h⟩

theorem hash_of_same (hF : F.Lawful) (h : F.same (F.view a) q = true) : F.hash q = K.hash a := by
  rw [← hF.hash_view, hF.hash_eq h]

end Form.Lawful

/-! ### Slots of keys -/

namespace Keying
variable {κ : Type} (K : Keying κ)

/-- The key in slot `i`. Beyond the last slot stands the reserved key. -/
def held (keys : Array κ) (i : Nat) : κ := keys.getD i K.reserved

/-- Slot `i` is not vacant. -/
def Taken (keys : Array κ) (i : Nat) : Prop := K.vacates (K.held keys i) = false

instance (keys : Array κ) (i : Nat) : Decidable (K.Taken keys i) :=
  inferInstanceAs (Decidable (_ = _))

/-- Where the probes for a key begin. -/
def home (size : Nat) (key : κ) : Nat := Probe.home size (K.hash key)

variable {K} {keys : Array κ} {i j : Nat} {key : κ}

theorem held_eq (h : i < keys.size) : K.held keys i = keys[i] := by
  simp [held, h]

theorem not_taken : ¬ K.Taken keys i ↔ K.vacates (K.held keys i) = true := by
  simp [Taken]

theorem Taken.lt (hK : K.Lawful) (h : K.Taken keys i) : i < keys.size := by
  by_contra hi
  have : K.held keys i = K.reserved := by simp [held, hi]
  rw [Taken, this, hK.vacates_reserved] at h
  cases h

theorem held_set (h : i < keys.size) (key : κ) (j : Nat) :
    K.held (keys.setIfInBounds i key) j = if j = i then key else K.held keys j := by
  simp only [held, Array.getD_eq_getD_getElem?, Array.getElem?_setIfInBounds, h, if_true, eq_comm]
  split <;> rfl

@[simp] theorem held_set_self (h : i < keys.size) : K.held (keys.setIfInBounds i key) i = key := by
  rw [held_set h, if_pos rfl]

theorem held_set_of_ne (h : i < keys.size) (hne : j ≠ i) :
    K.held (keys.setIfInBounds i key) j = K.held keys j := by
  rw [held_set h, if_neg hne]

theorem taken_set (hi : i < keys.size) (hkey : K.vacates key = false) :
    K.Taken (keys.setIfInBounds i key) j ↔ j = i ∨ K.Taken keys j := by
  by_cases he : j = i
  · simp [he, Taken, hi, hkey]
  · simp [he, Taken, held_set_of_ne hi he]

/-- Writing to a taken slot takes no further slot. -/
theorem taken_set_taken (hK : K.Lawful) (hi : K.Taken keys i) (hkey : K.vacates key = false) :
    K.Taken (keys.setIfInBounds i key) j ↔ K.Taken keys j := by
  rw [taken_set (hi.lt hK) hkey]
  exact ⟨fun hj => hj.elim (fun he => he ▸ hi) id, .inr⟩

@[simp] theorem held_replicate (size i : Nat) :
    K.held (Array.replicate size K.reserved) i = K.reserved := by
  by_cases h : i < size <;> simp [held, h]

theorem home_lt {size : Nat} (hs : size.isPowerOfTwo) (key : κ) : K.home size key < size :=
  wrap_lt hs _

theorem home_congr (hK : K.Lawful) {a b : κ} (h : K.same a b = true) (size : Nat) :
    K.home size a = K.home size b := by
  rw [home, home, hK.hash_eq h]

variable (K) in
/-- What a probe for a place to store `key` meets at its end, slot `i`, and before it. -/
structure Seats (keys : Array κ) (key : κ) (i : Nat) : Prop where
  lt : i < keys.size
  stop : K.vacates (K.held keys i) = true ∨ K.same (K.held keys i) key = true
  passed : ∀ j, j < keys.size → Passes keys.size (K.home keys.size key) i j →
    K.Taken keys j ∧ K.same (K.held keys j) key = false

end Keying

/-! ### Scans -/

/-- What a probe answers, and the slots that it has read by then. -/
structure Noted (α : Type) where
  answer : Except Fault α
  slots : List Nat

/-- Reads slot `i` and goes on with the key there. -/
def Noted.read {κ α : Type} (keys : Array κ) (i : Nat) (next : κ → Noted α) : Noted α :=
  match slotAt keys i with
  | .ok key => ⟨(next key).answer, i :: (next key).slots⟩
  | .error fault => ⟨.error fault, [i]⟩

namespace Probe

section Scans
variable {κ α : Type} {K : Keying κ} {keys : Array κ} {stop : Nat → κ → Option α}
  {out : Except Fault α} {i : Nat} {a : α}

/-- A probe from slot `i` that stops with what `stop` says, or with `out` after so many slots. -/
def scan (keys : Array κ) (stop : Nat → κ → Option α) (out : Except Fault α) :
    Nat → Nat → Noted α
  | 0, _ => ⟨out, []⟩
  | left + 1, i => .read keys i fun key =>
    match stop i key with
    | some a => ⟨.ok a, []⟩
    | none => scan keys stop out left (wrap keys.size (i + 1))

theorem slotAt_eq (h : i < keys.size) : slotAt keys i = .ok (K.held keys i) := by
  simp [slotAt, h, Keying.held_eq]

theorem answer_read (keys : Array κ) (i : Nat) (next : κ → Noted α) :
    (Noted.read keys i next).answer = slotAt keys i >>= fun key => (next key).answer := by
  unfold Noted.read
  cases slotAt keys i <;> rfl

theorem scan_stop (hi : i < keys.size) (h : stop i (K.held keys i) = some a) (left : Nat) :
    scan keys stop out (left + 1) i = ⟨.ok a, [i]⟩ := by
  simp only [scan, Noted.read, slotAt_eq (K := K) hi, h]

theorem scan_pass (hi : i < keys.size) (h : stop i (K.held keys i) = none) (left : Nat) :
    scan keys stop out (left + 1) i =
      ⟨(scan keys stop out left (wrap keys.size (i + 1))).answer,
        i :: (scan keys stop out left (wrap keys.size (i + 1))).slots⟩ := by
  simp only [scan, Noted.read, slotAt_eq (K := K) hi, h]

/-- A scan with no slot to stop at reads as many slots as it may. -/
theorem scan_out (hs : keys.size.isPowerOfTwo) (hi : i < keys.size) (left : Nat)
    (pass : ∀ j ∈ course keys.size i left, stop j (K.held keys j) = none) :
    scan keys stop out left i = ⟨out, course keys.size i left⟩ := by
  induction left generalizing i with
  | zero => rfl
  | succ left ih =>
    rw [course_succ hs hi, List.forall_mem_cons] at pass
    rw [scan_pass hi pass.1, ih (wrap_lt hs _) pass.2, course_succ hs hi]

/-- A scan reads the slots up to the first one to stop at. -/
theorem scan_first (hs : keys.size.isPowerOfTwo) (hi : i < keys.size) {n left : Nat}
    (hleft : n < left)
    (hstop : stop (wrap keys.size (i + n)) (K.held keys (wrap keys.size (i + n))) = some a)
    (pass : ∀ j ∈ course keys.size i n, stop j (K.held keys j) = none) :
    scan keys stop out left i = ⟨.ok a, course keys.size i (n + 1)⟩ := by
  obtain ⟨left, rfl⟩ : ∃ k, left = k + 1 := ⟨left - 1, by omega⟩
  induction n generalizing i left with
  | zero =>
    rw [Nat.add_zero, wrap_of_lt hs hi] at hstop
    rw [scan_stop hi hstop, course_succ hs hi]
    rfl
  | succ n ih =>
    obtain ⟨left, rfl⟩ : ∃ k, left = k + 1 := ⟨left - 1, by omega⟩
    rw [course_succ hs hi, List.forall_mem_cons] at pass
    rw [← wrap_succ_add hs] at hstop
    rw [scan_pass hi pass.1, ih (wrap_lt hs _) hstop pass.2 left (by omega), course_succ hs hi]

/-- Within a lap a scan comes to the slot where it would stop, if it passes the slots before. -/
theorem scan_end {home : Nat} (hs : keys.size.isPowerOfTwo) (hh : home < keys.size)
    (hi : i < keys.size) (hstop : stop i (K.held keys i) = some a)
    (pass : ∀ j, j < keys.size → Passes keys.size home i j → stop j (K.held keys j) = none) :
    (scan keys stop out keys.size home).answer = .ok a := by
  rw [← wrap_ahead hs hh hi] at hstop
  rw [scan_first hs hh (ahead_lt hh hi) hstop fun j hj => ?_]
  exact pass j (lt_of_mem_course hs hj) (passes_of_mem_course hs hh hi hj)

end Scans

/-! ### Probes -/

variable {κ θ : Type} {K : Keying κ} {F : Form K θ} {keys : Array κ} {key : κ} {q : θ} {i : Nat}

/-- A lookup stops at a vacant slot without an answer and at an equal key with its slot. -/
def findStop (F : Form K θ) (q : θ) (i : Nat) (held : κ) : Option (Option Nat) :=
  if K.vacates held then some none
  else if F.same (F.view held) q then some (some i)
  else none

/-- A search for a place stops at either. -/
def seatStop (K : Keying κ) (key : κ) (i : Nat) (held : κ) : Option Nat :=
  if K.vacates held || K.same held key then some i else none

theorem findStop_stop
    (h : K.vacates (K.held keys i) = true ∨ F.same (F.view (K.held keys i)) q = true) :
    findStop F q i (K.held keys i) = some (if K.Taken keys i then some i else none) := by
  by_cases htaken : K.Taken keys i
  · have hsame := h.resolve_left fun hvacant => Keying.not_taken.mpr hvacant htaken
    rw [if_pos htaken]
    rw [Keying.Taken] at htaken
    simp [findStop, htaken, hsame]
  · simp [findStop, Keying.not_taken.mp htaken, htaken]

theorem findStop_pass
    (h : K.Taken keys i ∧ F.same (F.view (K.held keys i)) q = false) :
    findStop F q i (K.held keys i) = none := by
  rw [Keying.Taken] at h
  simp [findStop, h]

theorem seatStop_stop
    (h : K.vacates (K.held keys i) = true ∨ K.same (K.held keys i) key = true) :
    seatStop K key i (K.held keys i) = some i := by
  rw [seatStop, if_pos (Bool.or_eq_true _ _ ▸ h)]

theorem seatStop_pass (h : K.Taken keys i ∧ K.same (K.held keys i) key = false) :
    seatStop K key i (K.held keys i) = none := by
  rw [Keying.Taken] at h
  simp [seatStop, h]

/-- A lookup is a scan. -/
theorem answer_findStop (F : Form K θ) (keys : Array κ) (q : θ) (left i : Nat) :
    (scan keys (findStop F q) (.ok none) left i).answer = findFrom F keys q left i := by
  induction left generalizing i with
  | zero => rfl
  | succ left ih =>
    rw [scan, answer_read, findFrom]
    congr 1
    funext held
    by_cases hvacant : K.vacates held = true
    · simp only [findStop, if_pos hvacant]
      rfl
    · by_cases hsame : F.same (F.view held) q = true
      · simp only [findStop, if_neg hvacant, if_pos hsame]
        rfl
      · simp only [findStop, if_neg hvacant, if_neg hsame]
        exact ih _

/-- The search for a place is a scan. -/
theorem answer_seatStop (K : Keying κ) (keys : Array κ) (key : κ) (left i : Nat) :
    (scan keys (seatStop K key) (.error .endlessProbe) left i).answer =
      seatFrom K keys key left i := by
  induction left generalizing i with
  | zero => rfl
  | succ left ih =>
    rw [scan, answer_read, seatFrom]
    congr 1
    funext held
    by_cases hstop : (K.vacates held || K.same held key) = true
    · simp only [seatStop, if_pos hstop]
      rfl
    · simp only [seatStop, if_neg hstop]
      exact ih _

/-- The place for a key is the first slot from its home that is vacant or holds an equal
key. -/
theorem seat_eq (hs : keys.size.isPowerOfTwo) (h : K.Seats keys key i) :
    seat K keys key = .ok i := by
  rw [seat, ← answer_seatStop]
  exact scan_end hs (K.home_lt hs key) h.lt (seatStop_stop h.stop) fun j hj hpassed =>
    seatStop_pass (h.passed j hj hpassed)

/-- A lookup ends at the first slot from home that is vacant or holds an equal key. -/
theorem find_eq (hs : keys.size.isPowerOfTwo) (hi : i < keys.size)
    (stop : K.vacates (K.held keys i) = true ∨ F.same (F.view (K.held keys i)) q = true)
    (passed : ∀ j, j < keys.size → Passes keys.size (Probe.home keys.size (F.hash q)) i j →
      K.Taken keys j ∧ F.same (F.view (K.held keys j)) q = false) :
    find F keys q = .ok (if K.Taken keys i then some i else none) := by
  rw [find, ← answer_findStop]
  exact scan_end hs (wrap_lt hs _) hi (findStop_stop stop) fun j hj hpassed =>
    findStop_pass (passed j hj hpassed)

/-- Among other keys only, and no vacant slot, a lookup gives up after a lap. -/
theorem find_full (hs : keys.size.isPowerOfTwo)
    (other : ∀ j, j < keys.size → K.Taken keys j ∧ F.same (F.view (K.held keys j)) q = false) :
    find F keys q = .ok none := by
  have hh : home keys.size (F.hash q) < keys.size := wrap_lt hs _
  rw [find, ← answer_findStop, scan_out (K := K) hs hh _ fun j hj => ?_]
  exact findStop_pass (other j (lt_of_mem_course hs hj))

end Probe
end SlotArrays
