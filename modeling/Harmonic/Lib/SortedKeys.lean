/-
Harmonic/Lib/SortedKeys.lean

Walking the union of the keys of two maps in ascending order.

`sortedKeys ks` lists the elements of `ks` in strictly ascending order, each
once: what collecting into an ordered set and iterating it gives.  A map built
from the values a partial function has on such a walk answers like the function
(`getElem?_ofList_filterMap`).  `patch` sets the values of a list of entries; each
key with one entry has its value afterwards and the others keep theirs.
-/
import Mathlib

namespace SortedKeys

open Std

variable {K V : Type*} [Ord K] [TransOrd K] [LawfulEqOrd K]

/-- The elements of a list, ascending and without repetition. -/
def sortedKeys (ks : List K) : List K := (TreeSet.ofList ks compare).toList

omit [TransOrd K] [LawfulEqOrd K] in
theorem compare_eq_iff [LawfulEqOrd K] {a b : K} : compare a b = .eq ↔ a = b :=
  LawfulEqCmp.compare_eq_iff_eq

@[simp] theorem mem_sortedKeys {ks : List K} {k : K} : k ∈ sortedKeys ks ↔ k ∈ ks := by
  classical
  let _ : BEq K := instBEqOfDecidableEq
  rw [sortedKeys, TreeSet.mem_toList, TreeSet.mem_ofList, List.contains_iff_mem]

omit [LawfulEqOrd K] in
theorem pairwise_sortedKeys (ks : List K) :
    (sortedKeys ks).Pairwise fun a b => compare a b = .lt :=
  TreeSet.ordered_toList

theorem nodup_sortedKeys (ks : List K) : (sortedKeys ks).Nodup := by
  refine (pairwise_sortedKeys ks).imp ?_
  rintro a b h rfl
  rw [compare_eq_iff.mpr rfl] at h
  cases h

/-- The walk is determined by what is walked over. -/
theorem sortedKeys_congr {ks ks' : List K} (h : ∀ k, k ∈ ks ↔ k ∈ ks') :
    sortedKeys ks = sortedKeys ks' := by
  have hperm : (sortedKeys ks).Perm (sortedKeys ks') := by
    refine (List.perm_ext_iff_of_nodup (nodup_sortedKeys ks) (nodup_sortedKeys ks')).mpr ?_
    intro k
    rw [mem_sortedKeys, mem_sortedKeys, h]
  refine hperm.eq_of_pairwise ?_ (pairwise_sortedKeys ks) (pairwise_sortedKeys ks')
  intro a b _ _ hab hba
  have hswap : compare b a = (compare a b).swap := OrientedCmp.eq_swap
  rw [hswap, hab] at hba
  cases hba

/-! ### Maps built from a walk -/

variable {V : Type*}

/-- A map made of `f`'s values on keys that include all where `f` has one. -/
theorem getElem?_ofList_filterMap {ks : List K} (hks : ks.Nodup) (f : K → Option V) {k : K}
    (hk : f k ≠ none → k ∈ ks) :
    (TreeMap.ofList (ks.filterMap fun k => (f k).map (Prod.mk k)) compare)[k]? = f k := by
  classical
  let _ : BEq K := instBEqOfDecidableEq
  rcases hf : f k with - | v
  · refine TreeMap.getElem?_ofList_of_contains_eq_false ?_
    simp only [List.contains_eq_mem, List.mem_map, List.mem_filterMap, Option.map_eq_some_iff,
      decide_eq_false_iff_not]
    rintro ⟨_, ⟨k', -, v, hv, rfl⟩, rfl⟩
    cases hf.symm.trans hv
  · refine TreeMap.getElem?_ofList_of_mem (k := k) (compare_eq_iff.mpr rfl) ?_ ?_
    · refine List.Pairwise.filterMap _ ?_ hks
      intro a a' hne b hb b' hb' heq
      obtain ⟨v, -, rfl⟩ := Option.map_eq_some_iff.mp hb
      obtain ⟨v', -, rfl⟩ := Option.map_eq_some_iff.mp hb'
      exact hne (compare_eq_iff.mp heq)
    · exact List.mem_filterMap.mpr ⟨k, hk (by simp [hf]), by simp [hf]⟩

/-! ### Patches -/

section Patch

variable {K V : Type*} [DecidableEq K]

/-- Set each key of a list of entries to its value. -/
def patch (m : K → V) (es : List (K × V)) : K → V :=
  es.foldl (fun m e => Function.update m e.1 e.2) m

theorem patch_of_notMem {m : K → V} {es : List (K × V)} {k : K} (hk : k ∉ es.map Prod.fst) :
    patch m es k = m k := by
  induction es generalizing m with
  | nil => rfl
  | cons e es ih =>
    obtain ⟨hne, hrest⟩ := not_or.mp (mt List.mem_cons.mpr hk)
    show patch (Function.update m e.1 e.2) es k = m k
    rw [ih hrest, Function.update_of_ne hne]

theorem patch_of_mem {m : K → V} {es : List (K × V)} (hes : (es.map Prod.fst).Nodup)
    {e : K × V} (he : e ∈ es) : patch m es e.1 = e.2 := by
  induction es generalizing m with
  | nil => cases he
  | cons e' es ih =>
    obtain ⟨hnot, hes'⟩ := List.nodup_cons.mp hes
    show patch (Function.update m e'.1 e'.2) es e.1 = e.2
    rcases List.mem_cons.mp he with rfl | he'
    · rw [patch_of_notMem hnot, Function.update_self]
    · exact ih hes' he'

end Patch

end SortedKeys
