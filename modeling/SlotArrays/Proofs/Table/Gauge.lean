import SlotArrays.Proofs.Table.Runs

/-! Tables without their slots.

A `Gauge` is what is left of a table when hashes and values are forgotten: its capacity
and the stored keys, in no order. A request changes it by the key that it stores or by
the keys that it drops (`KeyChange`), and what the change makes of it is read off the
equality of keys and the load factor alone. Every table keeps up with its gauge
(`Gauged`), so tables whose runs store and drop the same keys have the same capacity,
however their keys hash. -/
namespace SlotArrays

/-- The capacity that a table stores an entry in: the present one, if there is room, or the one
that it grows to. -/
def LoadFactor.fitted? (f : LoadFactor) (live capacity : Nat) : Option Nat :=
  if live < f.threshold capacity then some capacity else f.grown? live capacity

namespace Table
open Keying
variable {κ ν : Type} {K : Keying κ} [Inhabited ν] {t : Table K ν} {list : List κ}

/-! ### Changes of keys -/

/-- What a request does to the keys of a table. -/
inductive KeyChange (κ : Type)
  | none
  | store (key : κ)
  | drop (dropped : κ → Bool)

def Request.keyChange (r : Request K ν) : KeyChange κ :=
  match r.op with
  | .insert key _ => .store key
  | .erase q => .drop fun key => r.form.same (r.form.view key) q
  | _ => .none

/-- The capacity of a table and its keys. -/
structure Gauge (κ : Type) where
  capacity : Nat
  keys : List κ

/-- The gauge after a change of keys. Of the keying it takes the equality and the reserved key. -/
def Gauge.next (K : Keying κ) (f : LoadFactor) (g : Gauge κ) : KeyChange κ → Gauge κ
  | .none => g
  | .store key =>
    if K.vacates key then g
    else match f.fitted? g.keys.length g.capacity with
      | some slots => ⟨slots, key :: g.keys.filter fun k => !K.same k key⟩
      | none => g
  | .drop dropped => ⟨g.capacity, g.keys.filter fun key => !dropped key⟩

theorem Gauge.next_congr {K K' : Keying κ} (hsame : K'.same = K.same)
    (hreserved : K'.reserved = K.reserved) : Gauge.next K' = Gauge.next K := by
  obtain ⟨reserved, same, hash⟩ := K
  cases hsame
  cases hreserved
  funext f g change
  cases change <;> rfl

/-! ### Tables and gauges -/

theorem Inserted.fitted {key : κ} {value : ν} {t' : Table K ν} (hs : t.Sound)
    (h : Inserted t list key value t') :
    t.loadFactor.fitted? t.count t.capacity = some t'.capacity := by
  rw [LoadFactor.fitted?, Table.capacity, ← hs.threshold_eq]
  by_cases hroom : t.count < t.threshold
  · rw [if_pos hroom, h.capacity.mpr hroom]
    rfl
  · rw [if_neg hroom]
    exact h.grown (Nat.le_of_not_lt hroom)

theorem Spent.fitted (hs : t.Sound) (h : t.Spent) :
    t.loadFactor.fitted? t.count t.capacity = none := by
  rw [LoadFactor.fitted?, Table.capacity, ← hs.threshold_eq, if_neg (Nat.not_lt.mpr h.1)]
  exact grown?_eq_none.mpr h.2

/-- The gauge shows the capacity of the table and its keys. -/
structure Gauged (t : Table K ν) (g : Gauge κ) : Prop where
  capacity : t.capacity = g.capacity
  keys : (t.entries.map Prod.fst).Perm g.keys

variable {g : Gauge κ}

theorem Gauged.length (hs : t.Sound) (h : Gauged t g) : g.keys.length = t.count := by
  rw [hs.count_eq, ← h.keys.length_eq, List.length_map]

theorem AtRest.gauged_insert (h : t.AtRest list) (hg : Gauged t g) {key : κ} {value : ν}
    {t' : Table K ν} (hkey : K.vacates key = false) (hinserted : Inserted t list key value t') :
    Gauged t' (g.next K t.loadFactor (.store key)) := by
  have hnext : g.next K t.loadFactor (.store key) =
      ⟨t'.capacity, key :: g.keys.filter fun k => !K.same k key⟩ := by
    rw [Gauge.next, if_neg (by simp [hkey]), hg.length h.sound, ← hg.capacity,
      hinserted.fitted h.sound]
  rw [hnext]
  refine ⟨rfl, (hinserted.entries.map Prod.fst).trans ?_⟩
  rw [List.map_cons]
  have hfilter := hg.keys.filter fun k => !K.same k key
  rw [List.filter_map] at hfilter
  exact hfilter.cons key

theorem AtRest.gauged_spent (h : t.AtRest list) (hg : Gauged t g) (hspent : t.Spent) (key : κ) :
    Gauged t (g.next K t.loadFactor (.store key)) := by
  rw [Gauge.next, hg.length h.sound, ← hg.capacity, hspent.fitted h.sound]
  split <;> exact hg

/-- A table and its gauge go through a request together. -/
theorem AtRest.gauged_report (hK : K.Lawful) (h : t.AtRest list) (hg : Gauged t g)
    (r : Request K ν) : Gauged (r.report t).held (g.next K t.loadFactor r.keyChange) := by
  obtain ⟨query, F, hF, op⟩ := r
  have houtcome := h.outcome hK hF op
  unfold Request.keyChange Request.report
  generalize step F t op = report at houtcome
  cases houtcome with
  | inserted hkey hspent hinserted => exact h.gauged_insert hg hkey hinserted
  | reserved hkey =>
    show Gauged t (if _ then _ else _)
    rw [if_pos hkey]
    exact hg
  | overflow hkey hspent => exact h.gauged_spent hg hspent _
  | @replaced q value i hi hsame =>
    have hslot := (entries_taken hK h.sound.sizes hi).map Prod.fst
    have hrevalued := (entries_revalued hK h.sound hi value).map Prod.fst
    exact ⟨hg.capacity, (hrevalued.trans hslot.symm).trans hg.keys⟩
  | @erased q i t' moved hi hsame hremoved =>
    refine ⟨hremoved.capacity.trans hg.capacity, (hremoved.entries.map Prod.fst).trans ?_⟩
    have hfilter := hg.keys.filter fun key => !F.same (F.view key) q
    simp only [List.filter_map, Function.comp_def, hF.same_view_left hsame] at hfilter
    simp only [hF.same_view_left hsame]
    exact hfilter
  | @notErased q hother =>
    -- None of the keys is one to drop.
    have hnone : g.keys.filter (fun key => !F.same (F.view key) q) = g.keys := by
      rw [List.filter_eq_self]
      intro key hmem
      obtain ⟨entry, hentry, rfl⟩ := List.mem_map.mp (hg.keys.mem_iff.mpr hmem)
      obtain ⟨i, hi, rfl⟩ := (mem_entries hK h.sound.sizes).mp hentry
      show (!F.same (F.view (K.held t.keys i)) q) = true
      rw [hother i hi]
      rfl
    refine ⟨hg.capacity, ?_⟩
    show (t.entries.map Prod.fst).Perm (g.keys.filter fun key => !F.same (F.view key) q)
    rw [hnone]
    exact hg.keys
  | _ => exact hg

theorem AtRest.gauged_run (hK : K.Lawful) (h : t.AtRest list) (hg : Gauged t g)
    (requests : List (Request K ν)) :
    Gauged (t.afterAll requests)
      ((requests.map Request.keyChange).foldl (Gauge.next K t.loadFactor) g) := by
  induction requests generalizing t list g with
  | nil => exact hg
  | cons r requests ih =>
    have hnext := ih (h.remember hK r) (h.gauged_report hK hg r)
    rw [h.loadFactor_report hK r] at hnext
    exact hnext

/-- A new table has the capacity that was asked for and no keys. -/
theorem Gauged.make (hK : K.Lawful) {making : TableMaking} (hmake : make making = .ok t) :
    Gauged t ⟨slotCount making.asConfig.capacity, []⟩ := by
  have h := AtRest.make hK hmake
  obtain ⟨f, _, rfl⟩ := make_ok hmake
  have hnone := List.length_eq_zero_iff.mp h.sound.count_eq.symm
  refine ⟨by simp [Table.vacant, Table.capacity], ?_⟩
  rw [hnone]
  exact .nil

/-- Tables made alike, whose runs store and drop the same keys, have the same capacity. -/
theorem capacity_congr {ν' : Type} [Inhabited ν'] {K' : Keying κ} (hK : K.Lawful)
    (hK' : K'.Lawful) (hsame : K'.same = K.same) (hreserved : K'.reserved = K.reserved)
    {making : TableMaking} {t' : Table K' ν'} (hmake : make making = .ok t)
    (hmake' : make making = .ok t') {requests : List (Request K ν)}
    {requests' : List (Request K' ν')}
    (hchanges : requests'.map Request.keyChange = requests.map Request.keyChange) :
    (t'.afterAll requests').capacity = (t.afterAll requests).capacity := by
  have hrun := (AtRest.make hK hmake).gauged_run hK (.make hK hmake) requests
  have hrun' := (AtRest.make hK' hmake').gauged_run hK' (.make hK' hmake') requests'
  have hfactor : t'.loadFactor = t.loadFactor := by
    obtain ⟨⟨_, _⟩, hf, rfl⟩ := make_ok hmake
    obtain ⟨⟨_, _⟩, hf', rfl⟩ := make_ok hmake'
    cases hf
    cases hf'
    rfl
  rw [hchanges, hfactor, Gauge.next_congr hsame hreserved] at hrun'
  rw [hrun'.capacity, hrun.capacity]

end Table
end SlotArrays
