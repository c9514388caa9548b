import SlotArrays.Keying.Standard
import SlotArrays.Proofs.Table.Runs

/-! Where calls on a table break off.

Only storing can break off: under the reserved key, or when growth is due and no
capacity in the range of sizes has room for one entry more. With a capacity that can
be doubled the second comes of the load factor alone (`Sound.spent_iff`): a table that
holds an entry has a threshold of at least 1, and the doubled capacity has a greater
one, so a table without a capacity to grow to is empty and stays empty. `Faults`
gathers this with what a call leaves that comes to nothing. -/
namespace SlotArrays.Table
variable {κ ν θ : Type} {K : Keying κ} [Inhabited ν] {t : Table K ν} {list : List κ}
  {F : Form K θ}

/-! ### Tables without a capacity to grow to -/

/-- As long as the capacity can be doubled, it is the load factor that leaves no room. -/
theorem Sound.spent_iff (h : t.Sound) (hcapacity : t.capacity ≤ 2 ^ 62) :
    t.Spent ↔ t.loadFactor.value < 2 ^ (-63 : ℤ) := by
  obtain ⟨k, hk, hsize⟩ := h.power
  rw [capacity, hsize, Nat.pow_le_pow_iff_right (by decide)] at hcapacity
  have hthreshold := h.threshold_eq
  rw [hsize] at hthreshold
  rw [Spent, capacity, hsize, ← LoadFactor.threshold_last]
  constructor
  · intro h'
    obtain ⟨_, hspent⟩ := h'
    have hdoubled := hspent _ ((mem_doublings hk).mpr ⟨k + 1, by omega, by omega, rfl⟩)
    have hlast := hspent _ ((mem_doublings hk).mpr ⟨63, by omega, by omega, rfl⟩)
    have := t.loadFactor.two_mul_threshold_le (k := k) (by omega)
    have := h.count_le
    omega
  · intro hlast
    have hnone {n : Nat} (hn : n < 64) : t.loadFactor.threshold (2 ^ n) ≤ t.count := by
      have := t.loadFactor.threshold_mono (show n ≤ 63 by omega) (by decide)
      omega
    refine ⟨hthreshold ▸ hnone hk, fun slots hmem => ?_⟩
    obtain ⟨n, _, hn, rfl⟩ := (mem_doublings hk).mp hmem
    exact hnone hn

theorem Sound.count_eq_zero (h : t.Sound) (hvalue : t.loadFactor.value < 2 ^ (-63 : ℤ)) :
    t.count = 0 := by
  obtain ⟨k, hk, hsize⟩ := h.power
  have := t.loadFactor.threshold_mono (show k ≤ 63 by omega) (by decide)
  have := LoadFactor.threshold_last _ |>.mpr hvalue
  have := h.threshold_eq
  have := h.count_le
  rw [hsize] at *
  omega

/-! ### Calls that come to nothing -/

/-- The call broke off, was refused, or answered no. -/
inductive Unmet : Except Fault (TableAnswer κ ν) → Prop
  | fault (fault : Fault) : Unmet (.error fault)
  | refused (refusal : Refusal) : Unmet (.ok (.refused refusal))
  | absent : Unmet (.ok (.truth false))

/-- A call that comes to nothing leaves the table as it was and tells of nothing. -/
theorem Outcome.of_unmet {op : TableOp κ θ ν}
    {report : Call.Report (Table K ν) TableEvent (TableAnswer κ ν)}
    (h : Outcome F t list op report) (hunmet : Unmet report.answer) :
    report.held = t ∧ report.events = [] := by
  cases h with
  | inserted | replaced | erased => cases hunmet
  | _ => exact ⟨rfl, rfl⟩

/-- Where calls on a table break off, and what is left by a call that comes to nothing. -/
structure Faults (F : Form K θ) (t : Table K ν) : Prop where
  /-- Nothing but storing breaks off. -/
  answered : ∀ op, (∀ key value, op ≠ .insert key value) →
    ∃ answer, (step F t op).answer = .ok answer
  insert : ∀ key value, (∃ fault, (step F t (.insert key value)).answer = .error fault) ↔
    K.vacates key = true ∨ t.loadFactor.value < 2 ^ (-63 : ℤ)
  /-- The reserved key is minded first, before any growth. -/
  reserved : ∀ key value, K.vacates key = true →
    step F t (.insert key value) = ⟨.error .reservedKey, t, []⟩
  overflow : ∀ key value, K.vacates key = false → t.loadFactor.value < 2 ^ (-63 : ℤ) →
    step F t (.insert key value) = ⟨.error .capacityOverflow, t, []⟩
  empty : t.loadFactor.value < 2 ^ (-63 : ℤ) → t.count = 0
  inserted : ∀ key value, K.vacates key = false → 2 ^ (-63 : ℤ) ≤ t.loadFactor.value →
    (step F t (.insert key value)).answer = .ok .done
  kept : ∀ op, Unmet (step F t op).answer →
    (step F t op).held = t ∧ (step F t op).events = []

theorem AtRest.faults (hK : K.Lawful) (hF : F.Lawful) (h : t.AtRest list)
    (hcapacity : t.capacity ≤ 2 ^ 62) : Faults F t := by
  have hspent := h.sound.spent_iff hcapacity
  refine ⟨fun op hop => ?_, fun key value => ?_, fun key value hkey => step_insert_reserved hkey value,
    fun key value hkey hvalue => step_insert_spent hkey (hspent.mpr hvalue) value,
    h.sound.count_eq_zero, fun key value hkey hvalue => ?_, fun op => (h.outcome hK hF op).of_unmet⟩
  · cases hanswer : (step F t op).answer with
    | ok answer => exact ⟨answer, rfl⟩
    | error fault =>
      obtain ⟨key, value, he, _⟩ := ((h.outcome hK hF op).answer_eq_error fault).mp hanswer
      exact absurd he (hop key value)
  · rw [← hspent]
    simp only [(h.outcome hK hF (.insert key value)).answer_eq_error]
    constructor
    · intro hfault
      obtain ⟨_, _, _, he, hcase⟩ := hfault
      cases he
      rcases hcase with ⟨hkey, _⟩ | ⟨_, hspent, _⟩
      · exact .inl hkey
      · exact .inr hspent
    · intro hcase
      cases hkey : K.vacates key with
      | true => exact ⟨_, key, value, rfl, .inl ⟨hkey, rfl⟩⟩
      | false =>
        rw [hkey] at hcase
        exact ⟨_, key, value, rfl, .inr ⟨hkey, hcase.resolve_left Bool.false_ne_true, rfl⟩⟩
  · have hroom : ¬ t.Spent := fun hfull => absurd (hspent.mp hfull) (not_lt.mpr hvalue)
    obtain ⟨t', _, hstep⟩ := h.step_insert (F := F) hK hkey hroom value
    rw [hstep]

/-- **Storing breaks off under the reserved key and under a load factor below `2 ^ (-63)`, and
nothing else does**; a call that comes to nothing changes nothing. -/
theorem faults_run (hK : K.Lawful) (hF : F.Lawful) {making : TableMaking}
    (hmake : make making = .ok t) (requests : List (Request K ν))
    (hcapacity : (t.afterAll requests).capacity ≤ 2 ^ 62) : Faults F (t.afterAll requests) :=
  ((AtRest.make hK hmake).run hK requests).faults hK hF hcapacity

/-- A load factor of `2 ^ (-64)`. Nothing is ever stored. -/
theorem faults_run_of_tiny :
    ((vacant 4 ⟨⟨0x1f800000⟩, by decide⟩ : Table Keying.wang Int32).afterAll
      [.plain (Keying.plain_lawful _ _) (.insert 1 10)]).capacity ≤ 2 ^ 62 ∧
    Faults Keying.wang.self ((vacant 4 ⟨⟨0x1f800000⟩, by decide⟩ :
      Table Keying.wang Int32).afterAll [.plain (Keying.plain_lawful _ _) (.insert 1 10)]) := by
  have hcapacity : ((vacant 4 ⟨⟨0x1f800000⟩, by decide⟩ : Table Keying.wang Int32).afterAll
      [.plain (Keying.plain_lawful _ _) (.insert 1 10)]).capacity ≤ 2 ^ 62 := by decide +kernel
  have hmake : make (K := Keying.wang) (ν := Int32) (.capacityAndLoadFactor 4 ⟨0x1f800000⟩) =
      .ok (vacant 4 ⟨⟨0x1f800000⟩, by decide⟩) := rfl
  exact ⟨hcapacity, faults_run (Keying.plain_lawful _ _) (Keying.plain_lawful _ _).self hmake _
    hcapacity⟩

end SlotArrays.Table
