import SlotArrays.Keying.Standard
import SlotArrays.Proofs.Table.Runs

/-! Removing an entry from a table that is not full.

The walk takes out the entries of the cluster behind the removed one, each of them once,
and comes to the vacant slot that ends the cluster. `Compacted` says what this costs and
what it leaves alone: no slot outside of the cluster is written to, and no key ends up
further from home. -/
namespace SlotArrays.Table
open Keying SlotCircle
variable {κ ν θ : Type} {K : Keying κ} [Inhabited ν] {t : Table K ν} {list : List κ} {i r : Nat}

/-- How the removal from slot `i` ends, with a cluster of `r` entries behind it. -/
structure Compacted (t : Table K ν) (i r : Nat) (t' : Table K ν) : Prop where
  cluster : Cluster t i r
  walk : Rehashes t.capacity ⟨t.cleared i, []⟩ (wrap t.capacity (i + 1)) (t.span i 1 r) ⟨t', []⟩
    (wrap t.capacity (i + (r + 1)))
  /-- No entry is stored again twice. -/
  once : (t.span i 1 r).Pairwise fun a b => K.same a.1 b.1 = false
  capacity : t'.capacity = t.capacity
  count : t'.count + 1 = t.count
  frame : ∀ j, j < t.capacity → r < ahead t.capacity i j → t'.slot j = t.slot j
  nearer : ∀ j, K.Taken t.keys j → j ≠ i → ∃ j', K.Taken t'.keys j' ∧ t'.slot j' = t.slot j ∧
    ahead t.capacity (K.home t.capacity (K.held t.keys j)) j' ≤
      ahead t.capacity (K.home t.capacity (K.held t.keys j)) j

/-- The entries of a cluster have different keys. -/
theorem AtRest.cluster_pairwise (hK : K.Lawful) (h : t.AtRest list) (hi : i < t.capacity)
    (hr : Cluster t i r) : (t.span i 1 r).Pairwise fun a b => K.same a.1 b.1 = false := by
  have hs : t.capacity.isPowerOfTwo := h.sound.isPowerOfTwo
  have hlt := hr.lt
  have htaken {k : Nat} (hk : k ∈ List.range' 1 r) : K.Taken t.keys (wrap t.capacity (i + k)) := by
    obtain ⟨hpos, hk⟩ := List.mem_range'_1.mp hk
    have := hr.taken (k - 1) (by omega)
    rwa [Nat.sub_add_cancel hpos] at this
  have hsorted : (List.range' 1 r).Pairwise (· < ·) := List.pairwise_lt_range'
  rw [span, List.pairwise_map]
  refine hsorted.imp_of_mem fun ha hb hab => Bool.eq_false_iff.mpr fun hsame => ?_
  have he := h.injective hK _ _ (htaken ha) (htaken hb) hsame
  rw [List.mem_range'_1] at ha hb
  exact Nat.ne_of_lt hab (wrap_inj hs hi (by omega) (by omega) he)

theorem AtRest.compacted (hK : K.Lawful) (h : t.AtRest list) (hi : K.Taken t.keys i)
    (hr : Cluster t i r) : ∃ t', Compacted t i r t' := by
  obtain ⟨rank, hranked⟩ := h.arranged
  obtain ⟨t', hwalk, hunder, hordered⟩ := h.walk_cluster hK hranked hi hr
  have hs : t.keys.size.isPowerOfTwo := h.sound.isPowerOfTwo
  have hsize : t'.keys.size = t.keys.size := hunder.capacity
  have hentries := entries_taken hK h.sound.sizes hi
  have hkept {j : Nat} (hj : K.Taken t'.keys j) : ∃ j', K.Taken t.keys j' ∧ t.slot j' = t'.slot j := by
    have hmem := (mem_entries hK hunder.sound.sizes).mpr ⟨j, hj, rfl⟩
    have hmem := List.mem_cons_of_mem (t.slot i) (hunder.entries.mem_iff.mp hmem)
    exact (mem_entries hK h.sound.sizes).mp (hentries.mem_iff.mpr hmem)
  refine ⟨t', hr, hwalk.rehashes hK (capacity_cleared t i) [],
    h.cluster_pairwise hK (hi.lt hK) hr, hsize, ?_, fun j hj hfar => ?_, fun j hj hne => ?_⟩
  · rw [hunder.sound.count_eq, hunder.entries.length_eq, h.sound.count_eq, hentries.length_eq,
      List.length_cons]
  · exact hunder.unseen j (by rwa [hsize]) (by rwa [hsize])
  · have hother : t.slot j ∈ t.others i := by
      have hmem := hentries.mem_iff.mp ((mem_entries hK h.sound.sizes).mpr ⟨j, hj, rfl⟩)
      refine (List.mem_cons.mp hmem).resolve_left fun he => hne (h.injective hK j i hj hi ?_)
      rw [show K.held t.keys j = K.held t.keys i from congrArg Prod.fst he]
      exact hK.refl _
    obtain ⟨j', hj', hslot⟩ := (mem_entries hK hunder.sound.sizes).mp
      (hunder.entries.mem_iff.mpr hother)
    refine ⟨j', hj', hslot, ?_⟩
    refine hranked.ordered.nearer hK hs hordered hsize (fun k hk => ?_) hj hj'
      (congrArg Prod.fst hslot)
    obtain ⟨k', hk', hheld⟩ := hkept hk
    exact ⟨k', hk', congrArg Prod.fst hheld⟩

/-- **Removal from a table that is not full stores the entries of one cluster again**, each of
them once, leaves all other slots as they are and takes no key further from home. -/
theorem erase_cluster (hK : K.Lawful) {F : Form K θ} (hF : F.Lawful) {making : TableMaking}
    {t₀ : Table K ν} (hmake : make making = .ok t₀) (requests : List (Request K ν)) {j : Nat}
    (hj : j < (t₀.afterAll requests).capacity) (hvacant : ¬ K.Taken (t₀.afterAll requests).keys j)
    (hi : K.Taken (t₀.afterAll requests).keys i) {q : θ}
    (hq : F.same (F.view (K.held (t₀.afterAll requests).keys i)) q = true) :
    ∃ r t', Compacted (t₀.afterAll requests) i r t' ∧
      step F (t₀.afterAll requests) (.erase q) =
        ⟨.ok (.truth true), t', if 0 < r then [.rehashed r] else []⟩ := by
  have h := (AtRest.make hK hmake).run hK requests
  generalize t₀.afterAll requests = t at *
  obtain ⟨r, hr⟩ := exists_cluster hK h.sound.isPowerOfTwo hi hj hvacant
  obtain ⟨t', hcompacted⟩ := h.compacted hK hi hr
  have hstop : wrap t.capacity (i + (r + 1)) < t.capacity := wrap_lt h.sound.isPowerOfTwo _
  have hbehind : ahead t.capacity i (wrap t.capacity (i + (r + 1))) = r + 1 :=
    ahead_wrap h.sound.isPowerOfTwo (hi.lt hK) hr.lt
  -- The slot that ends the cluster has not been written to.
  have hend : ¬ K.Taken t'.keys (wrap t.capacity (i + (r + 1))) := by
    have hslot := hcompacted.frame _ hstop (by rw [hbehind]; exact Nat.lt_succ_self r)
    rw [Taken, show K.held t'.keys _ = K.held t.keys _ from congrArg Prod.fst hslot]
    exact hr.vacant
  have hwalk := rehashAfter_ok hcompacted.walk
    (by rw [length_span]; have := hr.lt; omega) (by rwa [hcompacted.capacity]) hend
  rw [length_span] at hwalk
  have herase := eraseWith_found hK h.sound hi (h.find_some hK hF hi hq []) hwalk
  exact ⟨r, t', hcompacted, step_erase herase⟩

/-- Keys that are hashed by their tens, in the last two slots and in the first three. -/
def straddling : Table (plain (0 : Int32) (· / 10)) Int32 :=
  (withCapacity 8).afterAll
    [.plain (plain_lawful _ _) (.insert 60 1), .plain (plain_lawful _ _) (.insert 70 2),
      .plain (plain_lawful _ _) (.insert 61 3), .plain (plain_lawful _ _) (.insert 71 4),
      .plain (plain_lawful _ _) (.insert 80 5)]

/-- The walk passes the end of the array. The key in the last slot stays there, the others
move up. -/
theorem erase_cluster_of_straddling :
    ¬ (plain 0 (· / 10)).Taken straddling.keys 4 ∧ (plain 0 (· / 10)).Taken straddling.keys 6 ∧
    ∃ r t', Compacted straddling 6 r t' ∧
      step (self _) straddling (.erase 60) =
        ⟨.ok (.truth true), t', if 0 < r then [.rehashed r] else []⟩ := by
  have hvacant : ¬ (plain 0 (· / 10)).Taken straddling.keys 4 := by decide +kernel
  have hi : (plain 0 (· / 10)).Taken straddling.keys 6 := by decide +kernel
  have hmake : make (K := plain (0 : Int32) (· / 10)) (ν := Int32) (.capacity 8) =
      .ok (withCapacity 8) := rfl
  exact ⟨hvacant, hi, erase_cluster (plain_lawful _ _) (plain_lawful _ _).self hmake _
    (by decide +kernel) hvacant hi (by decide +kernel)⟩

end SlotArrays.Table
