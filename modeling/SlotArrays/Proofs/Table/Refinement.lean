import SlotArrays.Keying.Standard
import SlotArrays.Proofs.Dict
import SlotArrays.Proofs.Table.Runs

/-! Tables are finite maps.

A table stands for the map with its entries. Each outcome of an operation is a step of
that map (`outcome_step`), so over a whole run a table answers as a map does, whatever
has been going on in its slots. -/
namespace SlotArrays.Table
open Keying List
variable {κ ν θ : Type} {K : Keying κ} [Inhabited ν] {t : Table K ν} {list : List κ}
  {d : Dict K ν} {F : Form K θ} {q : θ} {i : Nat}

/-! ### Lookups in the map -/

theorem lookup_taken (hK : K.Lawful) (hF : F.Lawful) (h : t.Sound)
    (hd : t.entries.Perm d.entries) (hi : K.Taken t.keys i)
    (hsame : F.same (F.view (K.held t.keys i)) q = true) : d.lookup F q = some (t.slot i) := by
  rw [Dict.lookup_eq_some hF, ← hd.mem_iff, mem_entries hK h.sizes]
  exact ⟨⟨i, hi, rfl⟩, hsame⟩

theorem get_taken (hK : K.Lawful) (hF : F.Lawful) (h : t.Sound)
    (hd : t.entries.Perm d.entries) (hi : K.Taken t.keys i)
    (hsame : F.same (F.view (K.held t.keys i)) q = true) : d.get F q = .ok (t.slot i).2 := by
  rw [Dict.get, lookup_taken hK hF h hd hi hsame]

theorem contains_taken (hK : K.Lawful) (hF : F.Lawful) (h : t.Sound)
    (hd : t.entries.Perm d.entries) (hi : K.Taken t.keys i)
    (hsame : F.same (F.view (K.held t.keys i)) q = true) : d.contains F q = true := by
  rw [Dict.contains, lookup_taken hK hF h hd hi hsame]
  rfl

theorem not_same_of_mem (hK : K.Lawful) (h : t.Sound) (hd : t.entries.Perm d.entries)
    (hother : ∀ i, K.Taken t.keys i → F.same (F.view (K.held t.keys i)) q = false) (entry : κ × ν)
    (hmem : entry ∈ d.entries) : F.same (F.view entry.1) q = false := by
  rw [← hd.mem_iff, mem_entries hK h.sizes] at hmem
  obtain ⟨i, hi, rfl⟩ := hmem
  exact hother i hi

/-! ### One step -/

theorem entries_revalued_perm (hK : K.Lawful) (hF : F.Lawful) (h : t.AtRest list)
    (hd : t.entries.Perm d.entries) (hi : K.Taken t.keys i)
    (hsame : F.same (F.view (K.held t.keys i)) q = true) (value : ν) :
    (t.revalued i value).entries.Perm (d.replace F q value).entries := by
  have hothers : (t.others i).map (Dict.revalue F q value) = t.others i := by
    refine (List.map_congr_left fun entry hmem => ?_).trans (List.map_id _)
    have hfilter := (h.others_of_taken hK hi (hK.refl _)).mem_iff.mp hmem
    have hother := (List.mem_filter.mp hfilter).2
    rw [Bool.not_eq_true'] at hother
    simp [Dict.revalue, hF.same_view_left hsame, hother]
  have hslot : Dict.revalue F q value (t.slot i) = (K.held t.keys i, value) := by
    simp [Dict.revalue, slot, hsame]
  calc (t.revalued i value).entries
    _ ~ (K.held t.keys i, value) :: t.others i := entries_revalued hK h.sound hi value
    _ ~ (t.slot i :: t.others i).map (Dict.revalue F q value) := by
      rw [List.map_cons, hslot, hothers]
    _ ~ (d.replace F q value).entries :=
      ((entries_taken hK h.sound.sizes hi).symm.trans hd).map _

/-- **Each outcome of an operation is a step of the map.** -/
theorem outcome_step (hK : K.Lawful) (hF : F.Lawful) (h : t.AtRest list)
    (hd : t.entries.Perm d.entries) {op : TableOp κ θ ν}
    {report : Call.Report (Table K ν) TableEvent (TableAnswer κ ν)}
    (houtcome : Outcome F t list op report) :
    ∃ d', d.Step F t.Spent op report.answer d' ∧ report.held.entries.Perm d'.entries := by
  have hs := h.sound
  cases houtcome with
  | inserted hkey hspent hinserted =>
    exact ⟨_, .insert hkey hspent, hinserted.entries.trans ((hd.filter _).cons _)⟩
  | reserved hkey => exact ⟨d, .reserved hkey, hd⟩
  | overflow hkey hspent => exact ⟨d, .overflow hkey hspent, hd⟩
  | @found q i hi hsame =>
    have hstep : d.Step F t.Spent (.get q) (.ok (.ofResult (d.get F q))) d := .get
    rw [get_taken hK hF hs hd hi hsame] at hstep
    exact ⟨d, hstep, hd⟩
  | @notFound q hother =>
    have hstep : d.Step F t.Spent (.get q) (.ok (.ofResult (d.get F q))) d := .get
    rw [Dict.get_missing (not_same_of_mem hK hs hd hother)] at hstep
    exact ⟨d, hstep, hd⟩
  | @replaced q value i hi hsame =>
    have hstep : d.Step F t.Spent (.replace q value) (.ok (.ofResult (d.get F q)))
      (d.replace F q value) := .replace
    rw [get_taken hK hF hs hd hi hsame] at hstep
    exact ⟨_, hstep, entries_revalued_perm hK hF h hd hi hsame value⟩
  | @notReplaced q value hother =>
    have hstep : d.Step F t.Spent (.replace q value) (.ok (.ofResult (d.get F q)))
      (d.replace F q value) := .replace
    have hnone := not_same_of_mem hK hs hd hother
    rw [Dict.get_missing hnone] at hstep
    exact ⟨_, hstep, hd.trans (.of_eq (Dict.replace_missing hnone value).symm)⟩
  | @present q i hi hsame =>
    have hstep : d.Step F t.Spent (.contains q) (.ok (.truth (d.contains F q))) d := .contains
    rw [contains_taken hK hF hs hd hi hsame] at hstep
    exact ⟨d, hstep, hd⟩
  | @absent q hother =>
    have hstep : d.Step F t.Spent (.contains q) (.ok (.truth (d.contains F q))) d := .contains
    rw [Dict.contains_missing (not_same_of_mem hK hs hd hother)] at hstep
    exact ⟨d, hstep, hd⟩
  | @erased q i t' moved hi hsame hremoved =>
    have hstep : d.Step F t.Spent (.erase q) (.ok (.truth (d.contains F q))) (d.erase F q) :=
      .erase
    rw [contains_taken hK hF hs hd hi hsame] at hstep
    refine ⟨_, hstep, hremoved.entries.trans ?_⟩
    simp only [Dict.erase, hF.same_view_left hsame]
    exact hd.filter _
  | @notErased q hother =>
    have hstep : d.Step F t.Spent (.erase q) (.ok (.truth (d.contains F q))) (d.erase F q) :=
      .erase
    have hnone := not_same_of_mem hK hs hd hother
    rw [Dict.contains_missing hnone] at hstep
    exact ⟨_, hstep, hd.trans (.of_eq (Dict.erase_missing hnone).symm)⟩
  | entries => exact ⟨d, .entries hd, hd⟩
  | size =>
    have hstep : d.Step F t.Spent .size (.ok (.number d.entries.length)) d := .size
    rw [← hd.length_eq, ← hs.count_eq] at hstep
    exact ⟨d, hstep, hd⟩
  | isEmpty =>
    have hstep : d.Step F t.Spent .isEmpty (.ok (.truth d.entries.isEmpty)) d := .isEmpty
    have hcount : d.entries.isEmpty = (t.count == 0) := by
      rw [hs.count_eq, hd.length_eq]
      cases d.entries <;> rfl
    rw [hcount] at hstep
    exact ⟨d, hstep, hd⟩

/-! ### Runs -/

/-- Over a list of requests the table answers as the map does, and a request that breaks off
leaves the table as it was. -/
inductive Mirrors : Table K ν → Dict K ν → List (Request K ν) → Prop
  | nil {t : Table K ν} {d : Dict K ν} : Mirrors t d []
  | cons {t : Table K ν} {d d' : Dict K ν} {r : Request K ν} {requests : List (Request K ν)}
      (step : d.Step r.form t.Spent r.op (r.report t).answer d')
      (kept : ∀ fault, (r.report t).answer = .error fault → (r.report t).held = t)
      (more : Mirrors (r.report t).held d' requests) : Mirrors t d (r :: requests)

theorem AtRest.mirrors (hK : K.Lawful) (h : t.AtRest list) (hd : t.entries.Perm d.entries)
    (requests : List (Request K ν)) : Mirrors t d requests := by
  induction requests generalizing t list d with
  | nil => exact .nil
  | cons r requests ih =>
    have houtcome := h.outcome hK r.lawful r.op
    obtain ⟨d', hstep, hd'⟩ := outcome_step hK r.lawful h hd houtcome
    exact .cons hstep (fun _ => houtcome.kept) (ih (h.remember hK r) hd')

/-- No operation finds an entry for `q`. -/
structure Absent (F : Form K θ) (t : Table K ν) (q : θ) : Prop where
  get : (step F t (.get q)).answer = .ok (.refused .keyNotFound)
  replace : ∀ value, (step F t (.replace q value)).answer = .ok (.refused .keyNotFound)
  contains : (step F t (.contains q)).answer = .ok (.truth false)
  erase : (step F t (.erase q)).answer = .ok (.truth false)

theorem AtRest.absent (hK : K.Lawful) (hF : F.Lawful) (h : t.AtRest list)
    (hother : ∀ i, K.Taken t.keys i → F.same (F.view (K.held t.keys i)) q = false) :
    Absent F t q := by
  have hnot {i : Nat} (hi : K.Taken t.keys i) :
      ¬ F.same (F.view (K.held t.keys i)) q = true := by simp [hother i hi]
  refine ⟨?_, fun value => ?_, ?_, ?_⟩
  · have houtcome := h.outcome hK hF (.get q)
    generalize step F t (.get q) = report at *
    cases houtcome with
    | found hi hsame => exact absurd hsame (hnot hi)
    | notFound => rfl
  · have houtcome := h.outcome hK hF (.replace q value)
    generalize step F t (.replace q value) = report at *
    cases houtcome with
    | replaced hi hsame => exact absurd hsame (hnot hi)
    | notReplaced => rfl
  · have houtcome := h.outcome hK hF (.contains q)
    generalize step F t (.contains q) = report at *
    cases houtcome with
    | present hi hsame => exact absurd hsame (hnot hi)
    | absent => rfl
  · have houtcome := h.outcome hK hF (.erase q)
    generalize step F t (.erase q) = report at *
    cases houtcome with
    | erased hi hsame => exact absurd hsame (hnot hi)
    | notErased => rfl

/-- **A table answers every run as a map does**, from the empty map on, and under the reserved
key nothing is ever found. -/
theorem mirrors_run (hK : K.Lawful) {making : TableMaking} (hmake : make making = .ok t)
    (requests : List (Request K ν)) :
    Mirrors t .empty requests ∧
    ∀ {θ : Type} (F : Form K θ), F.Lawful → ∀ q, F.same (F.view K.reserved) q = true →
      Absent F (t.afterAll requests) q := by
  have h := AtRest.make hK hmake
  have hnone : t.entries = [] := by
    obtain ⟨f, _, rfl⟩ := make_ok hmake
    exact List.length_eq_zero_iff.mp h.sound.count_eq.symm
  refine ⟨h.mirrors hK (.of_eq hnone) requests, fun F hF q hq => ?_⟩
  refine (h.run hK requests).absent hK hF fun i hi => ?_
  rw [hF.same_view_left hq]
  exact hi

/-- Keys that hash alike in two slots: one is stored twice and one is removed. -/
theorem mirrors_run_of_full :
    Mirrors (vacant 2 ⟨.one, by decide⟩ : Table (plain (0 : Int32) fun _ => 0) Int32) .empty
      [.plain (plain_lawful _ _) (.insert 1 10), .plain (plain_lawful _ _) (.insert 2 20),
        .plain (plain_lawful _ _) (.insert 1 30), .plain (plain_lawful _ _) (.erase 1)] :=
  (mirrors_run (plain_lawful _ _) (show make (.capacityAndLoadFactor 2 .one) = .ok _ from rfl) _).1

end SlotArrays.Table
