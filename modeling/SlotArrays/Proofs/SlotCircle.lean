import Mathlib.Algebra.Order.Ring.Nat
import Mathlib.Data.List.Nodup
import Mathlib.Data.Nat.Find
import SlotArrays.Capacity

/-! The slots as a circle.

A probe and the walk behind a removal both go from a slot to the next one, and
from the last slot to the first. `ahead size i j` counts the steps from slot `i`
forward to slot `j`, `course` lists the slots of so many steps in a row, and
`Passes size home j i` says that a probe from `home` comes by slot `i` before it
comes to slot `j`. What the proofs need of the circle beyond that are the few facts
at the end on where a probe has to come by; they compare slots by their distance
from one slot `p`, the order in which a walk from `p` sees them. -/
namespace SlotArrays.SlotCircle

/-- Steps from slot `i` forward to slot `j`. -/
def ahead (size i j : Nat) : Nat := if i ≤ j then j - i else j + size - i

/-- A probe from `home` comes by slot `i` before it comes to slot `j`. -/
def Passes (size home j i : Nat) : Prop := ahead size home i < ahead size home j

instance (size home j i : Nat) : Decidable (Passes size home j i) :=
  inferInstanceAs (Decidable (_ < _))

variable {size p i j k home : Nat}

theorem ahead_cases (size i j : Nat) :
    (i ≤ j ∧ ahead size i j = j - i) ∨ (j < i ∧ ahead size i j = j + size - i) := by
  unfold ahead
  split <;> omega

/-! ### Wrapping -/

theorem wrap_eq_mod (hs : size.isPowerOfTwo) (n : Nat) : wrap size n = n % size := by
  obtain ⟨k, rfl⟩ := hs
  exact Nat.and_two_pow_sub_one_eq_mod n k

theorem wrap_lt (hs : size.isPowerOfTwo) (n : Nat) : wrap size n < size := by
  rw [wrap_eq_mod hs]
  obtain ⟨k, rfl⟩ := hs
  exact Nat.mod_lt _ (Nat.two_pow_pos k)

theorem wrap_of_lt (hs : size.isPowerOfTwo) (h : i < size) : wrap size i = i := by
  rw [wrap_eq_mod hs, Nat.mod_eq_of_lt h]

/-- One step more from a slot that was reached by wrapping. -/
theorem wrap_wrap_succ (hs : size.isPowerOfTwo) (n : Nat) :
    wrap size (wrap size n + 1) = wrap size (n + 1) := by
  simp only [wrap_eq_mod hs, Nat.mod_add_mod]

/-- Steps from the slot after `p` are steps from `p`, one more of them. -/
theorem wrap_succ_add (hs : size.isPowerOfTwo) (p i : Nat) :
    wrap size (wrap size (p + 1) + i) = wrap size (p + (i + 1)) := by
  rw [wrap_eq_mod hs, wrap_eq_mod hs, wrap_eq_mod hs, Nat.mod_add_mod,
    show p + 1 + i = p + (i + 1) by omega]

/-- Within one lap wrapping is one subtraction at most. -/
theorem wrap_add (hs : size.isPowerOfTwo) (hi : i < size) {n : Nat} (hn : n ≤ size) :
    wrap size (i + n) = if i + n < size then i + n else i + n - size := by
  rw [wrap_eq_mod hs]
  split
  · exact Nat.mod_eq_of_lt ‹_›
  · rw [Nat.mod_eq_sub_mod (by omega), Nat.mod_eq_of_lt (by omega)]

theorem ahead_lt (hi : i < size) (hj : j < size) : ahead size i j < size := by
  have := ahead_cases size i j
  omega

theorem ahead_self (size i : Nat) : ahead size i i = 0 := by
  simp [ahead]

theorem ahead_inj (hi : i < size) (hj : j < size) (hk : k < size)
    (h : ahead size i j = ahead size i k) : j = k := by
  have := ahead_cases size i j
  have := ahead_cases size i k
  omega

theorem ahead_ne (hi : i < size) (hj : j < size) (hk : k < size) (h : j ≠ k) :
    ahead size i j ≠ ahead size i k := fun he => h (ahead_inj hi hj hk he)

theorem wrap_ahead (hs : size.isPowerOfTwo) (hi : i < size) (hj : j < size) :
    wrap size (i + ahead size i j) = j := by
  rw [wrap_add hs hi (ahead_lt hi hj).le]
  have := ahead_cases size i j
  split <;> omega

theorem ahead_wrap (hs : size.isPowerOfTwo) (hi : i < size) {n : Nat} (hn : n < size) :
    ahead size i (wrap size (i + n)) = n := by
  rw [wrap_add hs hi hn.le]
  split
  · have := ahead_cases size i (i + n)
    omega
  · have := ahead_cases size i (i + n - size)
    omega

/-- Within one lap every step comes to a slot of its own. -/
theorem wrap_inj (hs : size.isPowerOfTwo) (hp : p < size) (hi : i < size) (hj : j < size)
    (h : wrap size (p + i) = wrap size (p + j)) : i = j := by
  rw [← ahead_wrap hs hp hi, h, ahead_wrap hs hp hj]

/-- On the way to a slot one does not come to it. -/
theorem wrap_ne (hs : size.isPowerOfTwo) (hi : i < size) (hj : j < size) {n : Nat}
    (hn : n < ahead size i j) : wrap size (i + n) ≠ j := by
  intro he
  have := ahead_lt hi hj
  have := ahead_wrap hs hi (show n < size by omega)
  rw [he] at this
  omega

/-- The distance as a remainder. -/
theorem ahead_eq_mod (hi : i < size) (hj : j < size) : ahead size i j = (j + size - i) % size := by
  rcases ahead_cases size i j with ⟨_, h⟩ | ⟨_, h⟩
  · rw [h, show j + size - i = j - i + size by omega, Nat.add_mod_right, Nat.mod_eq_of_lt (by omega)]
  · rw [h, Nat.mod_eq_of_lt (by omega)]

/-! ### Steps in a row -/

/-- Where some slot has a property, steps from slot `i` lead to a first one that has it. -/
theorem exists_first (hs : size.isPowerOfTwo) (hi : i < size) {p : Nat → Prop} (hj : j < size)
    (hp : p j) :
    ∃ n, n < size ∧ p (wrap size (i + n)) ∧ ∀ m, m < n → ¬ p (wrap size (i + m)) := by
  have hex : ∃ n, n < size ∧ p (wrap size (i + n)) :=
    ⟨ahead size i j, ahead_lt hi hj, by rwa [wrap_ahead hs hi hj]⟩
  classical
  obtain ⟨hn, hfirst⟩ := Nat.find_spec hex
  exact ⟨Nat.find hex, hn, hfirst, fun m hm hpm => Nat.find_min hex hm ⟨by omega, hpm⟩⟩

/-- So many slots in a row, beginning with `start`. -/
def course (size start n : Nat) : List Nat := (List.range n).map fun k => wrap size (start + k)

theorem mem_course {n : Nat} : j ∈ course size i n ↔ ∃ m, m < n ∧ wrap size (i + m) = j := by
  simp [course]

theorem lt_of_mem_course (hs : size.isPowerOfTwo) {n : Nat} (h : j ∈ course size i n) :
    j < size := by
  obtain ⟨m, _, rfl⟩ := mem_course.mp h
  exact wrap_lt hs _

/-- In a row that ends before a slot are slots on the way to it. -/
theorem passes_of_mem_course (hs : size.isPowerOfTwo) (hh : home < size) (hi : i < size)
    (h : j ∈ course size home (ahead size home i)) : Passes size home i j := by
  obtain ⟨m, hm, rfl⟩ := mem_course.mp h
  have := ahead_lt hh hi
  rwa [Passes, ahead_wrap hs hh (by omega)]

theorem length_course (size start n : Nat) : (course size start n).length = n := by
  simp [course]

theorem course_succ (hs : size.isPowerOfTwo) (hi : i < size) (n : Nat) :
    course size i (n + 1) = i :: course size (wrap size (i + 1)) n := by
  simp only [course, List.range_succ_eq_map, List.map_cons, List.map_map, Nat.add_zero,
    wrap_of_lt hs hi, List.cons.injEq, true_and]
  congr 1
  funext k
  exact (wrap_succ_add hs i k).symm

theorem course_succ_last (size i n : Nat) :
    course size i (n + 1) = course size i n ++ [wrap size (i + n)] := by
  simp only [course, List.range_succ, List.map_append, List.map_cons, List.map_nil]

/-- A longer row begins with the shorter one. -/
theorem exists_course_append (size i : Nat) {n m : Nat} (h : n ≤ m) :
    ∃ rest, course size i m = course size i n ++ rest := by
  obtain ⟨k, rfl⟩ := Nat.exists_eq_add_of_le h
  simp only [course, List.range_add, List.map_append]
  exact ⟨_, rfl⟩

/-- A lap comes to every slot once. -/
theorem course_perm (hs : size.isPowerOfTwo) (hi : i < size) :
    (course size i size).Perm (List.range size) := by
  refine (List.perm_ext_iff_of_nodup ?_ List.nodup_range).mpr fun j => ?_
  · refine List.Nodup.map_on (fun n hn m hm he => ?_) List.nodup_range
    rw [List.mem_range] at hn hm
    exact wrap_inj hs hi hn hm he
  · rw [mem_course, List.mem_range]
    constructor
    · rintro ⟨n, _, rfl⟩
      exact wrap_lt hs _
    · intro hj
      exact ⟨ahead size i j, ahead_lt hi hj, wrap_ahead hs hi hj⟩

/-! ### Where a probe comes by -/

theorem not_passes_self (size home j : Nat) : ¬ Passes size home j j := Nat.lt_irrefl _

theorem Passes.trans (h : Passes size home j i) (h' : Passes size home k j) :
    Passes size home k i := Nat.lt_trans h h'

/-- Of two slots one is passed on the way to the other. -/
theorem passes_or_passes (hh : home < size) (hi : i < size) (hj : j < size) (hne : i ≠ j) :
    Passes size home j i ∨ Passes size home i j := by
  have := ahead_ne hh hi hj hne
  unfold Passes
  omega

/-- A probe that passes `i` on its way to `j` passes what lies between them. -/
theorem Passes.between (h : Passes size home j i) (hik : ahead size p i < ahead size p k)
    (hkj : ahead size p k < ahead size p j) (hp : p < size) (hh : home < size) (hj : j < size)
    (hk : k < size) : Passes size home j k := by
  unfold Passes at *
  have := ahead_cases size p i
  have := ahead_cases size p j
  have := ahead_cases size p k
  have := ahead_cases size home i
  have := ahead_cases size home j
  have := ahead_cases size home k
  omega

/-- A probe that passes a slot beyond its end has come around past `p`. -/
theorem Passes.around (h : Passes size home j i) (hji : ahead size p j < ahead size p i)
    (hp : p < size) (hh : home < size) (hj : j < size) :
    ahead size p j < ahead size p home := by
  unfold Passes at *
  have := ahead_cases size p i
  have := ahead_cases size p j
  have := ahead_cases size p home
  have := ahead_cases size home i
  have := ahead_cases size home j
  omega

/-- A probe that has come around past `p` passes all from there to its end. -/
theorem passes_of_around (h : ahead size p j < ahead size p home)
    (hij : ahead size p i < ahead size p j) (hp : p < size) (hh : home < size) (hi : i < size) :
    Passes size home j i := by
  unfold Passes
  have := ahead_cases size p i
  have := ahead_cases size p j
  have := ahead_cases size p home
  have := ahead_cases size home i
  have := ahead_cases size home j
  omega

end SlotArrays.SlotCircle
