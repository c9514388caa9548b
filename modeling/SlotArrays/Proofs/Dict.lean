import SlotArrays.Proofs.Probing
import SlotArrays.Table.Operation

/-! Finite maps.

A `Dict` is what a table is for: entries under different keys, none of them under the
reserved one. Keys are told apart by the keying's equality only, and an entry keeps
the spelling under which it was stored last. The entries stand in no order that
matters: `Step`, which says how a map answers an operation, leaves it open in which
order they are listed. -/
namespace SlotArrays

structure Dict {κ : Type} (K : Keying κ) (ν : Type) where
  entries : List (κ × ν)
  distinct : entries.Pairwise fun a b => K.same b.1 a.1 = false
  live : ∀ entry ∈ entries, K.vacates entry.1 = false

namespace Dict
variable {κ ν θ : Type} {K : Keying κ}

def empty : Dict K ν := ⟨[], .nil, fun _ h => absurd h List.not_mem_nil⟩

/-- The entry for `q`. -/
def lookup (F : Form K θ) (d : Dict K ν) (q : θ) : Option (κ × ν) :=
  d.entries.find? fun entry => F.same (F.view entry.1) q

def get (F : Form K θ) (d : Dict K ν) (q : θ) : Except Refusal ν :=
  match d.lookup F q with
  | some entry => .ok entry.2
  | none => .error .keyNotFound

def contains (F : Form K θ) (d : Dict K ν) (q : θ) : Bool := (d.lookup F q).isSome

/-- The value under a key, in place of one that was there under an equal key. -/
def store (d : Dict K ν) (key : κ) (value : ν) (hkey : K.vacates key = false) : Dict K ν where
  entries := (key, value) :: d.entries.filter fun entry => !K.same entry.1 key
  distinct := by
    rw [List.pairwise_cons]
    refine ⟨fun entry hmem => ?_, d.distinct.filter _⟩
    simpa using (List.mem_filter.mp hmem).2
  live entry hmem := by
    cases List.mem_cons.mp hmem with
    | inl he =>
      rw [he]
      exact hkey
    | inr hmem => exact d.live entry (List.mem_filter.mp hmem).1

/-- An entry with another value, if its key is asked for. -/
def revalue (F : Form K θ) (q : θ) (value : ν) (entry : κ × ν) : κ × ν :=
  (entry.1, if F.same (F.view entry.1) q then value else entry.2)

/-- Another value under the key asked for, if there is such a key. -/
def replace (F : Form K θ) (d : Dict K ν) (q : θ) (value : ν) : Dict K ν where
  entries := d.entries.map (revalue F q value)
  distinct := List.pairwise_map.mpr d.distinct
  live entry hmem := by
    obtain ⟨old, hold, rfl⟩ := List.mem_map.mp hmem
    exact d.live old hold

def erase (F : Form K θ) (d : Dict K ν) (q : θ) : Dict K ν where
  entries := d.entries.filter fun entry => !F.same (F.view entry.1) q
  distinct := d.distinct.filter _
  live entry hmem := d.live entry (List.mem_filter.mp hmem).1

/-- How a map answers an operation, and the map after it. Storing breaks off, and changes
nothing, under the reserved key, and when there is no room (`full`). -/
inductive Step (F : Form K θ) (full : Prop) (d : Dict K ν) :
    TableOp κ θ ν → Except Fault (TableAnswer κ ν) → Dict K ν → Prop
  | insert {key value} (hkey : K.vacates key = false) (hroom : ¬ full) :
      Step F full d (.insert key value) (.ok .done) (d.store key value hkey)
  | reserved {key value} (hkey : K.vacates key = true) :
      Step F full d (.insert key value) (.error .reservedKey) d
  | overflow {key value} (hkey : K.vacates key = false) (hfull : full) :
      Step F full d (.insert key value) (.error .capacityOverflow) d
  | get {q} : Step F full d (.get q) (.ok (.ofResult (d.get F q))) d
  | replace {q value} :
      Step F full d (.replace q value) (.ok (.ofResult (d.get F q))) (d.replace F q value)
  | contains {q} : Step F full d (.contains q) (.ok (.truth (d.contains F q))) d
  | erase {q} : Step F full d (.erase q) (.ok (.truth (d.contains F q))) (d.erase F q)
  | entries {list} (hlist : list.Perm d.entries) : Step F full d .entries (.ok (.entries list)) d
  | size : Step F full d .size (.ok (.number d.entries.length)) d
  | isEmpty : Step F full d .isEmpty (.ok (.truth d.entries.isEmpty)) d

/-! ### Laws of maps -/

variable {F : Form K θ} {d : Dict K ν} {q : θ} {entry : κ × ν}

/-- A lookup finds the one entry whose key is asked for. -/
theorem lookup_eq_some (hF : F.Lawful) :
    d.lookup F q = some entry ↔ entry ∈ d.entries ∧ F.same (F.view entry.1) q = true := by
  constructor
  · intro h
    rw [lookup] at h
    refine ⟨List.mem_of_find?_eq_some h, ?_⟩
    simpa using List.find?_some h
  · intro ⟨hmem, hsame⟩
    rw [lookup, List.find?_eq_some_iff_append]
    obtain ⟨before, behind, he⟩ := List.append_of_mem hmem
    refine ⟨hsame, before, behind, he, fun other hother => ?_⟩
    have hdistinct := d.distinct
    rw [he, List.pairwise_append] at hdistinct
    have := hdistinct.2.2 other hother entry List.mem_cons_self
    rw [← hF.same_view] at this
    by_contra hsame'
    rw [Bool.not_eq_true, Bool.not_eq_false'] at hsame'
    rw [hF.trans hsame (hF.symm hsame')] at this
    cases this

theorem lookup_eq_none :
    d.lookup F q = none ↔ ∀ entry ∈ d.entries, F.same (F.view entry.1) q = false := by
  simp [lookup]

/-- Nothing is stored under the reserved key. -/
theorem lookup_reserved (hF : F.Lawful) (h : F.same (F.view K.reserved) q = true) :
    d.lookup F q = none := by
  rw [lookup_eq_none]
  intro entry hmem
  rw [hF.same_view_left h]
  exact d.live entry hmem

/-- What was stored last under a key is what is found. -/
theorem lookup_store (hF : F.Lawful) (d : Dict K ν) (key : κ) (value : ν)
    (hkey : K.vacates key = false) (q : θ) : (d.store key value hkey).lookup F q =
      if F.same (F.view key) q then some (key, value) else d.lookup F q := by
  by_cases hsame : F.same (F.view key) q = true
  · rw [if_pos hsame, lookup_eq_some hF]
    exact ⟨List.mem_cons_self, hsame⟩
  · rw [if_neg hsame]
    apply Option.ext
    intro entry
    rw [lookup_eq_some hF, lookup_eq_some hF]
    constructor
    · intro ⟨hmem, hentry⟩
      cases List.mem_cons.mp hmem with
      | inl he =>
        rw [he] at hentry
        exact absurd hentry hsame
      | inr hmem => exact ⟨(List.mem_filter.mp hmem).1, hentry⟩
    · intro ⟨hmem, hentry⟩
      refine ⟨List.mem_cons_of_mem _ (List.mem_filter.mpr ⟨hmem, ?_⟩), hentry⟩
      rw [Bool.not_eq_true', Bool.eq_false_iff]
      intro hother
      rw [← hF.same_view] at hother
      exact hsame (hF.trans (hF.symm hother) hentry)

/-- Replacing changes the value under one key. -/
theorem lookup_replace (d : Dict K ν) (q r : θ) (value : ν) :
    (d.replace F q value).lookup F r = (d.lookup F r).map (revalue F q value) := by
  rw [lookup, replace, List.find?_map]
  rfl

/-- Erasing takes away one key. -/
theorem lookup_erase (hF : F.Lawful) (d : Dict K ν) (q r : θ) : (d.erase F q).lookup F r =
    if F.same q r then none else d.lookup F r := by
  by_cases hsame : F.same q r = true
  · rw [if_pos hsame, lookup_eq_none]
    intro entry hmem
    have hother := (List.mem_filter.mp hmem).2
    rw [Bool.not_eq_true', Bool.eq_false_iff] at hother
    rw [Bool.eq_false_iff]
    intro hentry
    exact hother (hF.trans hentry (hF.symm hsame))
  · rw [if_neg hsame]
    apply Option.ext
    intro entry
    rw [lookup_eq_some hF, lookup_eq_some hF]
    constructor
    · intro ⟨hmem, hentry⟩
      exact ⟨(List.mem_filter.mp hmem).1, hentry⟩
    · intro ⟨hmem, hentry⟩
      refine ⟨List.mem_filter.mpr ⟨hmem, ?_⟩, hentry⟩
      rw [Bool.not_eq_true', Bool.eq_false_iff]
      intro hother
      exact hsame (hF.trans (hF.symm hother) hentry)

/-! ### Keys that are not there -/

section Missing
variable (hother : ∀ entry ∈ d.entries, F.same (F.view entry.1) q = false)
include hother

theorem get_missing : d.get F q = .error .keyNotFound := by
  rw [get, lookup_eq_none.mpr hother]

theorem contains_missing : d.contains F q = false := by
  rw [contains, lookup_eq_none.mpr hother]
  rfl

theorem replace_missing (value : ν) : (d.replace F q value).entries = d.entries := by
  show d.entries.map (revalue F q value) = d.entries
  refine (List.map_congr_left fun entry hmem => ?_).trans (List.map_id _)
  simp [revalue, hother entry hmem]

theorem erase_missing : (d.erase F q).entries = d.entries := by
  refine List.filter_eq_self.mpr fun entry hmem => ?_
  rw [hother entry hmem]
  rfl

end Missing
end Dict
end SlotArrays
