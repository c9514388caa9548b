import SlotArrays.Proofs.Table.Removal

/-! Runs.

A run is a list of requests, each an operation with the form of the keys in which it
looks up. `Outcome` says all that an operation can do to a table at rest: what it
answers, which events it emits and what it leaves. Every operation has such an
outcome (`outcome`), which is again a table at rest, for the list of keys that
`remember` keeps. So every table that a run comes to from a new one is at rest for
the run's `history`. -/
namespace SlotArrays

/-- What is asked for, with the defaults where nothing is. -/
def TableMaking.asConfig : TableMaking → Config
  | empty => .default
  | capacity requested => Config.default.withCapacity requested
  | capacityAndLoadFactor requested loadFactor =>
    (Config.default.withCapacity requested).withLoadFactor loadFactor
  | config c => c

namespace Table
open Keying
variable {κ ν θ : Type} {K : Keying κ} [Inhabited ν]

/-! ### New tables -/

theorem ofConfig_default_loadFactor (config : Config)
    (h : config.loadFactor = LoadFactor.default.single) :
    ofConfig (K := K) (ν := ν) config = .ok (vacant (slotCount config.capacity) .default) := by
  rw [ofConfig, Config.resolve, h]
  rfl

/-- All ways to make a table come down to one. -/
theorem make_eq (making : TableMaking) :
    make (K := K) (ν := ν) making = ofConfig making.asConfig := by
  cases making with
  | empty =>
    rw [TableMaking.asConfig, ofConfig_default_loadFactor .default rfl]
    rfl
  | capacity requested =>
    rw [TableMaking.asConfig, ofConfig_default_loadFactor (Config.default.withCapacity requested) rfl]
    rfl
  | capacityAndLoadFactor requested loadFactor => rfl
  | config c => rfl

/-- A new table is vacant, with the capacity and load factor that were asked for. -/
theorem make_ok {making : TableMaking} {t : Table K ν} (h : make making = .ok t) :
    ∃ f : LoadFactor, f.single = making.asConfig.loadFactor ∧
      t = vacant (slotCount making.asConfig.capacity) f := by
  rw [make_eq, ofConfig, Config.resolve, LoadFactor.ofSingle] at h
  split at h
  · cases h
    exact ⟨_, rfl, rfl⟩
  · cases h

theorem AtRest.make (hK : K.Lawful) {making : TableMaking} {t : Table K ν}
    (h : make making = .ok t) : t.AtRest [] := by
  obtain ⟨f, _, rfl⟩ := make_ok h
  obtain ⟨k, hk, hsize⟩ := exists_slotCount making.asConfig.capacity
  rw [hsize]
  exact .vacant hK (by omega) f

/-! ### What an operation does -/

/-- What an operation on a table may come to. -/
inductive Outcome (F : Form K θ) (t : Table K ν) (list : List κ) : TableOp κ θ ν →
    Call.Report (Table K ν) TableEvent (TableAnswer κ ν) → Prop
  | inserted {key value t'} (hkey : K.vacates key = false) (hspent : ¬ t.Spent)
      (h : Inserted t list key value t') :
      Outcome F t list (.insert key value) ⟨.ok .done, t', growthEvents t t'⟩
  | reserved {key value} (hkey : K.vacates key = true) :
      Outcome F t list (.insert key value) ⟨.error .reservedKey, t, []⟩
  | overflow {key value} (hkey : K.vacates key = false) (hspent : t.Spent) :
      Outcome F t list (.insert key value) ⟨.error .capacityOverflow, t, []⟩
  | found {q i} (hi : K.Taken t.keys i) (hsame : F.same (F.view (K.held t.keys i)) q = true) :
      Outcome F t list (.get q) ⟨.ok (.value (t.slot i).2), t, []⟩
  | notFound {q} (hother : ∀ i, K.Taken t.keys i → F.same (F.view (K.held t.keys i)) q = false) :
      Outcome F t list (.get q) ⟨.ok (.refused .keyNotFound), t, []⟩
  | replaced {q value i} (hi : K.Taken t.keys i)
      (hsame : F.same (F.view (K.held t.keys i)) q = true) :
      Outcome F t list (.replace q value) ⟨.ok (.value (t.slot i).2), t.revalued i value, []⟩
  | notReplaced {q value}
      (hother : ∀ i, K.Taken t.keys i → F.same (F.view (K.held t.keys i)) q = false) :
      Outcome F t list (.replace q value) ⟨.ok (.refused .keyNotFound), t, []⟩
  | present {q i} (hi : K.Taken t.keys i) (hsame : F.same (F.view (K.held t.keys i)) q = true) :
      Outcome F t list (.contains q) ⟨.ok (.truth true), t, []⟩
  | absent {q} (hother : ∀ i, K.Taken t.keys i → F.same (F.view (K.held t.keys i)) q = false) :
      Outcome F t list (.contains q) ⟨.ok (.truth false), t, []⟩
  | erased {q i t' moved} (hi : K.Taken t.keys i)
      (hsame : F.same (F.view (K.held t.keys i)) q = true) (h : Removed t list i t') :
      Outcome F t list (.erase q) ⟨.ok (.truth true), t', rehashEvents moved⟩
  | notErased {q} (hother : ∀ i, K.Taken t.keys i → F.same (F.view (K.held t.keys i)) q = false) :
      Outcome F t list (.erase q) ⟨.ok (.truth false), t, []⟩
  | entries : Outcome F t list .entries ⟨.ok (.entries t.entries), t, []⟩
  | size : Outcome F t list .size ⟨.ok (.number t.count), t, []⟩
  | isEmpty : Outcome F t list .isEmpty ⟨.ok (.truth (t.count == 0)), t, []⟩

variable {F : Form K θ} {t : Table K ν} {list : List κ}

theorem step_insert_reserved {key : κ} (hkey : K.vacates key = true) (value : ν) :
    step F t (.insert key value) = ⟨.error .reservedKey, t, []⟩ :=
  Call.report_error (Call.bind_error (insert_reserved hkey value))

theorem step_insert_spent {key : κ} (hkey : K.vacates key = false) (hspent : t.Spent) (value : ν) :
    step F t (.insert key value) = ⟨.error .capacityOverflow, t, []⟩ :=
  Call.report_error (Call.bind_error (insert_spent hkey hspent value))

theorem AtRest.step_insert (hK : K.Lawful) (h : t.AtRest list) {key : κ}
    (hkey : K.vacates key = false) (hspent : ¬ t.Spent) (value : ν) :
    ∃ t', Inserted t list key value t' ∧
      step F t (.insert key value) = ⟨.ok .done, t', growthEvents t t'⟩ := by
  obtain ⟨t', hinsert, hinserted⟩ := h.insert hK hkey hspent value []
  have hperform : perform F (.insert key value) ⟨t, []⟩ = .ok .done ⟨t', growthEvents t t'⟩ :=
    Call.bind_eq hinsert rfl
  exact ⟨t', hinserted, Call.report_ok hperform⟩

theorem AtRest.outcome_insert (hK : K.Lawful) (h : t.AtRest list) (key : κ) (value : ν) :
    Outcome F t list (.insert key value) (step F t (.insert key value)) := by
  cases hkey : K.vacates key with
  | true =>
    rw [step_insert_reserved hkey]
    exact .reserved hkey
  | false =>
    by_cases hspent : t.Spent
    · rw [step_insert_spent hkey hspent]
      exact .overflow hkey hspent
    · obtain ⟨t', hinserted, hstep⟩ := h.step_insert hK hkey hspent value
      rw [hstep]
      exact .inserted hkey hspent hinserted

theorem step_erase {q : θ} {present : Bool} {t' : Table K ν} {events : List TableEvent}
    (h : erase F q ⟨t, []⟩ = .ok present ⟨t', events⟩) :
    step F t (.erase q) = ⟨.ok (.truth present), t', events⟩ := by
  have hperform : perform F (.erase q) ⟨t, []⟩ = .ok (.truth present) ⟨t', events⟩ :=
    Call.bind_eq h rfl
  exact Call.report_ok hperform

theorem AtRest.outcome_erase (hK : K.Lawful) (hF : F.Lawful) (h : t.AtRest list) (q : θ) :
    Outcome F t list (.erase q) (step F t (.erase q)) := by
  rcases h.find_cases hK hF q [] with ⟨i, hi, hsame, hfind⟩ | ⟨hother, hfind⟩
  · obtain ⟨t', moved, hwalk, hremoved⟩ := h.rehashAfter_ok hK hi []
    rw [step_erase (eraseWith_found hK h.sound hi hfind hwalk)]
    exact .erased hi hsame hremoved
  · rw [step_erase (eraseWith_missing hfind)]
    exact .notErased hother

/-- **An operation on a table at rest comes to one of its outcomes.** -/
theorem AtRest.outcome (hK : K.Lawful) (hF : F.Lawful) (h : t.AtRest list)
    (op : TableOp κ θ ν) : Outcome F t list op (step F t op) := by
  have hvalue {i : Nat} (hi : K.Taken t.keys i) : i < t.values.size := by
    rw [h.sound.sizes]
    exact hi.lt hK
  cases op with
  | insert key value => exact h.outcome_insert hK key value
  | get q =>
    rcases h.find_cases hK hF q [] with ⟨i, hi, hsame, hfind⟩ | ⟨hother, hfind⟩
    · have hstep : perform F (.get q) ⟨t, []⟩ = .ok (.value (t.slot i).2) ⟨t, []⟩ :=
        Call.bind_eq (get_found (hvalue hi) hfind) rfl
      rw [step, Call.report_ok hstep]
      exact .found hi hsame
    · have hstep : perform F (.get q) ⟨t, []⟩ = .ok (.refused .keyNotFound) ⟨t, []⟩ :=
        Call.bind_eq (get_missing hfind) rfl
      rw [step, Call.report_ok hstep]
      exact .notFound hother
  | replace q value =>
    rcases h.find_cases hK hF q [] with ⟨i, hi, hsame, hfind⟩ | ⟨hother, hfind⟩
    · have hstep : perform F (.replace q value) ⟨t, []⟩ =
          .ok (.value (t.slot i).2) ⟨t.revalued i value, []⟩ :=
        Call.bind_eq (modify_found (hvalue hi) _ hfind) rfl
      rw [step, Call.report_ok hstep]
      exact .replaced hi hsame
    · have hstep : perform F (.replace q value) ⟨t, []⟩ = .ok (.refused .keyNotFound) ⟨t, []⟩ :=
        Call.bind_eq (modify_missing _ hfind) rfl
      rw [step, Call.report_ok hstep]
      exact .notReplaced hother
  | contains q =>
    rcases h.find_cases hK hF q [] with ⟨i, hi, hsame, hfind⟩ | ⟨hother, hfind⟩
    · have hstep : perform F (.contains q) ⟨t, []⟩ = .ok (.truth true) ⟨t, []⟩ :=
        Call.bind_eq (contains_eq hfind) rfl
      rw [step, Call.report_ok hstep]
      exact .present hi hsame
    · have hstep : perform F (.contains q) ⟨t, []⟩ = .ok (.truth false) ⟨t, []⟩ :=
        Call.bind_eq (contains_eq hfind) rfl
      rw [step, Call.report_ok hstep]
      exact .absent hother
  | erase q => exact h.outcome_erase hK hF q
  | entries => exact .entries
  | size => exact .size
  | isEmpty => exact .isEmpty

/-- An operation that breaks off leaves the table as it was. -/
theorem Outcome.kept {op : TableOp κ θ ν}
    {report : Call.Report (Table K ν) TableEvent (TableAnswer κ ν)} {fault : Fault}
    (h : Outcome F t list op report) (hfault : report.answer = .error fault) : report.held = t := by
  cases h with
  | reserved hkey => rfl
  | overflow hkey hspent => rfl
  | _ => cases hfault

/-- What breaks off is storing, under the reserved key or with no capacity to grow to. -/
theorem Outcome.answer_eq_error {op : TableOp κ θ ν}
    {report : Call.Report (Table K ν) TableEvent (TableAnswer κ ν)}
    (h : Outcome F t list op report) (fault : Fault) :
    report.answer = .error fault ↔ ∃ key value, op = .insert key value ∧
      (K.vacates key = true ∧ fault = .reservedKey ∨
        K.vacates key = false ∧ t.Spent ∧ fault = .capacityOverflow) := by
  cases h with
  | inserted hkey hspent _ =>
    constructor
    · nofun
    · rintro ⟨_, _, he, ⟨hkey', _⟩ | ⟨_, hspent', _⟩⟩
      · cases he
        rw [hkey] at hkey'
        cases hkey'
      · exact absurd hspent' hspent
  | @reserved key value hkey =>
    constructor
    · intro he
      cases he
      exact ⟨key, value, rfl, .inl ⟨hkey, rfl⟩⟩
    · rintro ⟨_, _, he, ⟨_, rfl⟩ | ⟨hkey', _⟩⟩
      · rfl
      · cases he
        rw [hkey] at hkey'
        cases hkey'
  | @overflow key value hkey hspent =>
    constructor
    · intro he
      cases he
      exact ⟨key, value, rfl, .inr ⟨hkey, hspent, rfl⟩⟩
    · rintro ⟨_, _, he, ⟨hkey', _⟩ | ⟨_, _, rfl⟩⟩
      · cases he
        rw [hkey] at hkey'
        cases hkey'
      · rfl
  | _ => exact ⟨nofun, nofun⟩

/-! ### Requests -/

/-- A call in a run. Each may look up in a form of its own. -/
structure Request {κ : Type} (K : Keying κ) (ν : Type) : Type 1 where
  query : Type
  form : Form K query
  lawful : form.Lawful
  op : TableOp κ query ν

namespace Request

/-- A call that looks keys up as they are. -/
def plain (hK : K.Lawful) (op : TableOp κ κ ν) : Request K ν := ⟨κ, K.self, hK.self, op⟩

/-- What the request reports of a table. -/
def report (r : Request K ν) (t : Table K ν) :
    Call.Report (Table K ν) TableEvent (TableAnswer κ ν) := step r.form t r.op

/-- The list of keys after the request. A growth lists the keys anew, in slot order; a key
that is stored is restated; one that is removed leaves the list. -/
def remember (r : Request K ν) (t : Table K ν) (list : List κ) : List κ :=
  match r.op, (r.report t).answer with
  | .insert key _, .ok _ =>
    K.restate key (if (r.report t).held.capacity = t.capacity then list else t.entries.map Prod.fst)
  | .erase q, _ => list.filter fun k => !r.form.same (r.form.view k) q
  | _, _ => list

end Request

theorem Inserted.relisted {key : κ} {value : ν} {t' : Table K ν}
    (h : Inserted t list key value t') :
    t.relisted list = if t'.capacity = t.capacity then list else t.entries.map Prod.fst := by
  rw [Table.relisted]
  by_cases hroom : t.count < t.threshold
  · rw [if_neg (Nat.not_le.mpr hroom), if_pos (h.capacity.mpr hroom)]
  · rw [if_pos (Nat.not_lt.mp hroom), if_neg fun he => hroom (h.capacity.mp he)]

/-- A request leaves a table at rest, for the list that it remembers. -/
theorem AtRest.remember (hK : K.Lawful) (h : t.AtRest list) (r : Request K ν) :
    (r.report t).held.AtRest (r.remember t list) := by
  obtain ⟨query, F, hF, op⟩ := r
  have houtcome := h.outcome hK hF op
  unfold Request.remember Request.report
  generalize step F t op = report at houtcome
  cases houtcome with
  | inserted hkey hspent hinserted =>
    show Table.AtRest _ (K.restate _ _)
    rw [← hinserted.relisted]
    exact hinserted.rest
  | replaced hi hsame => exact h.revalued hK hi _
  | erased hi hsame hremoved =>
    show Table.AtRest _ (list.filter _)
    simp only [hF.same_view_left hsame]
    exact hremoved.rest
  | notErased hother =>
    -- No key of the list is the one that was to be removed.
    show t.AtRest (list.filter _)
    rw [List.filter_eq_self.mpr]
    · exact h
    · intro key hmem
      obtain ⟨_, hranked⟩ := h.arranged
      obtain ⟨i, hi, rfl⟩ := (hranked.mem key).mp hmem
      rw [hother i hi]
      rfl
  | reserved | overflow | found | notFound | notReplaced | present | absent | entries | size
  | isEmpty => exact h

/-- No request changes the load factor. -/
theorem AtRest.loadFactor_report (hK : K.Lawful) (h : t.AtRest list) (r : Request K ν) :
    (r.report t).held.loadFactor = t.loadFactor := by
  obtain ⟨query, F, hF, op⟩ := r
  have houtcome := h.outcome hK hF op
  unfold Request.report
  generalize step F t op = report at houtcome
  cases houtcome with
  | inserted hkey hspent hinserted => exact hinserted.loadFactor
  | erased hi hsame hremoved => exact hremoved.loadFactor
  | _ => rfl

/-! ### Runs -/

/-- The table after a list of requests. -/
def afterAll (t : Table K ν) (requests : List (Request K ν)) : Table K ν :=
  requests.foldl (fun t r => (r.report t).held) t

/-- A run whose lookups all have one form. -/
theorem after_eq_afterAll (hF : F.Lawful) (t : Table K ν) (ops : List (TableOp κ θ ν)) :
    after F t ops = t.afterAll (ops.map fun op => ⟨θ, F, hF, op⟩) := by
  rw [afterAll, List.foldl_map]
  rfl

/-- The list of keys after a list of requests, from the list at the beginning. -/
def history (t : Table K ν) (list : List κ) : List (Request K ν) → List κ
  | [] => list
  | r :: requests => history (r.report t).held (r.remember t list) requests

theorem AtRest.run (hK : K.Lawful) (h : t.AtRest list) (requests : List (Request K ν)) :
    (t.afterAll requests).AtRest (t.history list requests) := by
  induction requests generalizing t list with
  | nil => exact h
  | cons r requests ih => exact ih (h.remember hK r)

theorem AtRest.loadFactor_run (hK : K.Lawful) (h : t.AtRest list)
    (requests : List (Request K ν)) : (t.afterAll requests).loadFactor = t.loadFactor := by
  induction requests generalizing t list with
  | nil => rfl
  | cons r requests ih =>
    have hrest := ih (h.remember hK r)
    exact hrest.trans (h.loadFactor_report hK r)

end Table
end SlotArrays
