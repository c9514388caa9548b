import SlotArrays.Proofs.IntTable.Twins
import SlotArrays.Proofs.Layout

/-! The course of a probe.

A lookup and the search for a place are scans, and they note their slots (`noteFind`,
`noteSeat`). They stop at the same slots, those that are vacant or hold an equal key. So
in any array, whatever put its keys where they are, the two read the same slots in the
same order, up to the first of those (`StopsAt`). Where there is none the lookup reads a
whole lap, and the search for a place would not end. -/
namespace SlotArrays
open SlotCircle

namespace Probe

/-! ### Slots on the way -/

section Ways
variable {κ θ : Type} {K : Keying κ} {keys : Array κ} {key : κ}

/-- A lookup, with its slots noted. -/
def noteFind (F : Form K θ) (keys : Array κ) (q : θ) : Noted (Option Nat) :=
  scan keys (findStop F q) (.ok none) keys.size (home keys.size (F.hash q))

/-- A search for a place, with its slots noted, and given up after so many of them. -/
def noteSeat (K : Keying κ) (keys : Array κ) (key : κ) (steps : Nat) : Noted Nat :=
  scan keys (seatStop K key) (.error .endlessProbe) steps (K.home keys.size key)

variable (K) in
/-- The probes for `key` come by the slots of `before` and then to slot `i`, the first one that is
vacant or holds an equal key. -/
structure StopsAt (keys : Array κ) (key : κ) (before : List Nat) (i : Nat) : Prop where
  lap : ∃ behind, Keying.lap keys.size (K.hash key) = before ++ i :: behind
  within : before.length < keys.size
  stop : K.Taken keys i ↔ K.same (K.held keys i) key = true
  passed : ∀ j ∈ before, K.Taken keys j ∧ K.same (K.held keys j) key = false

variable (K) in
/-- How a lookup for `key` and a search for its place go, the search within so many slots. -/
structure Agree (keys : Array κ) (key : κ) (find : Noted (Option Nat)) (seat : Nat → Noted Nat) :
    Prop where
  /-- A lap has every slot once. -/
  once : (Keying.lap keys.size (K.hash key)).Perm (List.range keys.size)
  /-- Where a slot is vacant. -/
  ends : (∃ j, j < keys.size ∧ ¬ K.Taken keys j) → ∃ before i, StopsAt K keys key before i ∧
    find = ⟨.ok (if K.Taken keys i then some i else none), before ++ [i]⟩ ∧
    ∀ steps, keys.size ≤ steps → seat steps = ⟨.ok i, before ++ [i]⟩
  /-- Where none is. -/
  full : (∀ j, j < keys.size → K.Taken keys j) →
    (∃ before i, StopsAt K keys key before i ∧ find = ⟨.ok (some i), before ++ [i]⟩) ∨
    (∀ j, j < keys.size → K.same (K.held keys j) key = false) ∧
      find = ⟨.ok none, Keying.lap keys.size (K.hash key)⟩

theorem lap_eq_course {size : Nat} (hs : size.isPowerOfTwo) (hash : Int32) :
    Keying.lap size hash = course size (home size hash) size := by
  simp only [Keying.lap, course, home, wrap_eq_mod hs, Nat.mod_add_mod]

theorem StopsAt.lt {before : List Nat} {i : Nat} (hs : keys.size.isPowerOfTwo)
    (h : StopsAt K keys key before i) : i < keys.size := by
  obtain ⟨behind, hlap⟩ := h.lap
  have hmem : i ∈ Keying.lap keys.size (K.hash key) := by
    rw [hlap]
    exact List.mem_append_right _ List.mem_cons_self
  rw [lap_eq_course hs] at hmem
  exact lt_of_mem_course hs hmem

/-! ### Up to the first slot to stop at -/

section Agreement
variable {F : Form K θ} {i : Nat}

/-- A key that is equal to one to be stored does not mark a slot. -/
theorem taken_of_same (hK : Equivalence fun a b => K.same a b = true)
    (hkey : K.vacates key = false) (h : K.same (K.held keys i) key = true) : K.Taken keys i := by
  by_contra hvacant
  rw [Keying.not_taken] at hvacant
  have hreserved : K.vacates key = true := hK.trans (hK.symm h) hvacant
  rw [hkey] at hreserved
  cases hreserved

/-- From home to the first slot that is vacant or holds an equal key, where there is one. -/
theorem exists_stopsAt (hK : Equivalence fun a b => K.same a b = true)
    (hview : ∀ a b, F.same (F.view a) (F.view b) = K.same a b)
    (hs : keys.size.isPowerOfTwo) (hkey : K.vacates key = false)
    (hhash : F.hash (F.view key) = K.hash key) (hi : i < keys.size)
    (hstop : K.vacates (K.held keys i) = true ∨ K.same (K.held keys i) key = true) :
    ∃ before i, StopsAt K keys key before i ∧
      noteFind F keys (F.view key) =
        ⟨.ok (if K.Taken keys i then some i else none), before ++ [i]⟩ ∧
      ∀ steps, keys.size ≤ steps → noteSeat K keys key steps = ⟨.ok i, before ++ [i]⟩ := by
  have hh := K.home_lt hs key
  obtain ⟨n, hn, hfirst, hbefore⟩ := exists_first
    (p := fun j => K.vacates (K.held keys j) = true ∨ K.same (K.held keys j) key = true)
    hs hh hi hstop
  have hpassed : ∀ j ∈ course keys.size (K.home keys.size key) n,
      K.Taken keys j ∧ K.same (K.held keys j) key = false := by
    intro j hj
    obtain ⟨m, hm, rfl⟩ := mem_course.mp hj
    have hgo := hbefore m hm
    rwa [not_or, Bool.not_eq_true, Bool.not_eq_true] at hgo
  refine ⟨course keys.size (K.home keys.size key) n, wrap keys.size (K.home keys.size key + n),
    ⟨?_, ?_, ⟨?_, taken_of_same hK hkey⟩, hpassed⟩, ?_, fun steps hsteps => ?_⟩
  · obtain ⟨behind, hbehind⟩ := exists_course_append keys.size (K.home keys.size key) hn
    refine ⟨behind, ?_⟩
    rw [lap_eq_course hs, ← Keying.home, hbehind, course_succ_last, List.append_assoc]
    rfl
  · rwa [length_course]
  · exact fun htaken => hfirst.resolve_left fun hvacant => Keying.not_taken.mpr hvacant htaken
  · simp only [← hview] at hfirst hpassed
    rw [noteFind, hhash, ← Keying.home, ← course_succ_last]
    exact scan_first hs hh hn (findStop_stop hfirst) fun j hj => findStop_pass (hpassed j hj)
  · rw [noteSeat, ← course_succ_last]
    exact scan_first hs hh (by omega) (seatStop_stop hfirst) fun j hj =>
      seatStop_pass (hpassed j hj)

theorem agree (hK : Equivalence fun a b => K.same a b = true)
    (hview : ∀ a b, F.same (F.view a) (F.view b) = K.same a b)
    (hs : keys.size.isPowerOfTwo) (hkey : K.vacates key = false)
    (hhash : F.hash (F.view key) = K.hash key) :
    Agree K keys key (noteFind F keys (F.view key)) (noteSeat K keys key) where
  once := by
    rw [lap_eq_course hs]
    exact course_perm hs (wrap_lt hs _)
  ends hvacant := by
    obtain ⟨j, hj, hvacant⟩ := hvacant
    exact exists_stopsAt hK hview hs hkey hhash hj (.inl (Keying.not_taken.mp hvacant))
  full hfull := by
    by_cases hex : ∃ j, j < keys.size ∧ K.same (K.held keys j) key = true
    · obtain ⟨j, hj, hsame⟩ := hex
      obtain ⟨before, i, hstops, hfind, _⟩ :=
        exists_stopsAt hK hview hs hkey hhash hj (.inr hsame)
      rw [if_pos (hfull i (hstops.lt hs))] at hfind
      exact .inl ⟨before, i, hstops, hfind⟩
    · push Not at hex
      have hother : ∀ j, j < keys.size → K.same (K.held keys j) key = false := fun j hj =>
        Bool.eq_false_iff.mpr (hex j hj)
      refine .inr ⟨hother, ?_⟩
      simp only [← hview] at hother
      rw [noteFind, hhash, lap_eq_course hs]
      refine scan_out (K := K) hs (wrap_lt hs _) _ fun j hj => ?_
      have hlt := lt_of_mem_course hs hj
      exact findStop_pass ⟨hfull j hlt, hother j hlt⟩

end Agreement
end Ways

/-- **The two probes agree and come to an end**, in any array and under any hash: they go the
same way, a lookup as far as a search for a place, and past a whole lap neither of them. The
probes of 32-bit keys are those of their keying. -/
theorem probes_agree {κ θ : Type} {K : Keying κ} (hK : Equivalence fun a b => K.same a b = true)
    (F : Form K θ) (hview : ∀ a b, F.same (F.view a) (F.view b) = K.same a b)
    (keys : Array κ) (hs : keys.size.isPowerOfTwo) (key : κ) (hkey : K.vacates key = false)
    (hhash : F.hash (F.view key) = K.hash key)
    (words : Array Int32) (hwords : words.size.isPowerOfTwo) (word : Int32)
    (hword : word ≠ IntTable.vacantKey) :
    (Agree K keys key (noteFind F keys (F.view key)) (noteSeat K keys key) ∧
      (noteFind F keys (F.view key)).answer = find F keys (F.view key) ∧
      (noteSeat K keys key keys.size).answer = seat K keys key ∧
      ∀ steps, (noteSeat K keys key steps).answer =
        seatFrom K keys key steps (home keys.size (K.hash key))) ∧
    Agree .wang words word (noteFind Keying.wang.self words word) (noteSeat .wang words word) ∧
      (noteFind Keying.wang.self words word).answer =
        IntTable.findFrom words word words.size (IntTable.home words word) ∧
      ∀ steps, (noteSeat .wang words word steps).answer =
        IntTable.seatFrom words word steps (IntTable.home words word) := by
  have hwang : Keying.wang.Lawful := Keying.plain_lawful _ _
  have hequal : Equivalence fun a b => Keying.wang.same a b = true :=
    ⟨hwang.refl, hwang.symm, hwang.trans⟩
  refine ⟨⟨agree hK hview hs hkey hhash, answer_findStop .., answer_seatStop ..,
    fun _ => answer_seatStop ..⟩, agree hequal (fun _ _ => rfl) hwords ?_ rfl, ?_, fun steps => ?_⟩
  · rwa [IntTable.vacates_wang, beq_eq_false_iff_ne]
  · rw [IntTable.findFrom_eq]
    exact answer_findStop ..
  · rw [IntTable.seatFrom_eq]
    exact answer_seatStop ..

/-- Keys that hash to the last slot. The key 2 stands behind a vacant slot, where no probe for it
gets; and among four other words a lookup for 9 comes around. -/
theorem probes_agree_of_stranded :
    (Keying.plain (0 : Int32) fun _ => -1).home 4 2 = 3 ∧
    Agree (.plain (0 : Int32) fun _ => -1) #[1, 0, 2, 3] 2
      (noteFind (Keying.plain (0 : Int32) fun _ => -1).self #[1, 0, 2, 3] 2)
      (noteSeat (.plain (0 : Int32) fun _ => -1) #[1, 0, 2, 3] 2) ∧
    Agree .wang #[4, 1, 2, 3] 9 (noteFind Keying.wang.self #[4, 1, 2, 3] 9)
      (noteSeat .wang #[4, 1, 2, 3] 9) := by
  have hlawful : (Keying.plain (0 : Int32) fun _ => -1).Lawful := Keying.plain_lawful _ _
  have hpower : (4 : Nat).isPowerOfTwo := ⟨2, rfl⟩
  have hagree := probes_agree ⟨hlawful.refl, hlawful.symm, hlawful.trans⟩ (Keying.self _)
    (fun _ _ => rfl) #[1, 0, 2, 3] hpower 2 (by decide) rfl #[4, 1, 2, 3] hpower 9 (by decide)
  exact ⟨by decide, hagree.1.1, hagree.2.1⟩

end Probe
end SlotArrays
