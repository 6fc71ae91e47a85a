/-
Harmonic/Listing.lean

Paths that are text, and the listing of a state.

A path is text exactly if its components are (`toStr?_isSome_iff`), so what
`PathBuf::from` makes of a string always has a string again: the paths of a list
of file statuses never stop the planner.  For such paths `has_hidden_components`
says what it seems to say.

`SyncState.listing` is the list of file statuses that tells all of a state.  The
planner's map of a list with distinct paths has its entries and no others
(`getElem?_remoteTree_eq_some`).
-/
import Harmonic.Lib.Utf8
import Harmonic.Plan

namespace Harmonic

open SortedKeys

/-! ### Paths that are text -/

theorem isSome_toStr? {bs : OsStr} : (OsStr.toStr? bs).isSome = true ↔ Utf8.Valid bs :=
  Utf8.isSome_fromUTF8?

theorem asOsStr_of_ofPiece {bs : OsStr} {c : Component} (h : Component.ofPiece bs = some c) :
    c.asOsStr = bs := by
  unfold Component.ofPiece at h
  split at h
  · rename_i hdots
    obtain rfl := Option.some.inj h
    exact hdots.symm
  · split at h
    · obtain rfl := Option.some.inj h
      rfl
    · cases h

/-- The components of a text are texts. -/
theorem valid_comps_ofBytes {bs : OsStr} (h : Utf8.Valid bs) :
    ∀ c ∈ (PathBuf.ofBytes bs).comps, Utf8.Valid c.asOsStr := by
  intro c hc
  obtain ⟨piece, hpiece, hofPiece⟩ := List.mem_filterMap.mp hc
  rw [asOsStr_of_ofPiece hofPiece]
  exact h.of_mem_splitOn (s := '/') (by decide) hpiece

/-- A path is text exactly if its components are. -/
theorem toStr?_isSome_iff {p : PathBuf} :
    p.toStr?.isSome = true ↔ ∀ c ∈ p.comps, Utf8.Valid c.asOsStr := by
  rw [PathBuf.toStr?, isSome_toStr?]
  constructor
  · intro h
    have hcomps := valid_comps_ofBytes h
    rwa [ofBytes_asOsStr] at hcomps
  · intro h
    have hjoin : Utf8.Valid ([slash].intercalate (p.comps.map Component.asOsStr)) :=
      Utf8.valid_intercalate (s := '/') (by decide) (List.forall_mem_map.mpr h)
    unfold PathBuf.asOsStr
    split
    · exact hjoin
    · exact (Utf8.valid_ascii (s := '/') (by decide)).append hjoin
    · refine Utf8.valid_intercalate (s := '/') (by decide) ?_
      exact List.forall_mem_cons.mpr
        ⟨Utf8.valid_ascii (s := '.') (by decide), List.forall_mem_map.mpr h⟩

/-- **Texts give texts.**  What `PathBuf::from` makes of a string is text. -/
theorem toStr?_ofString (s : String) : (PathBuf.ofString s).toStr?.isSome = true :=
  toStr?_isSome_iff.mpr (valid_comps_ofBytes (Utf8.valid_toUTF8 s))

/-- The components of a path as strings, the first one included. -/
def PathBuf.components (p : PathBuf) : List OsStr :=
  (match p.anchor with
    | .none => []
    | .rootDir => [[slash]]
    | .curDir => [[dot]]) ++ p.comps.map Component.asOsStr

/-- Some component starts with a dot. -/
def PathBuf.Dotted (p : PathBuf) : Prop := ∃ c ∈ p.components, c.head? = some dot

/-- A path that is text is hidden exactly if it has a component with a dot in
front. -/
theorem hasHiddenComponents_iff {p : PathBuf} (h : p.toStr? ≠ none) :
    hasHiddenComponents p = true ↔ p.Dotted := by
  have hvalid := toStr?_isSome_iff.mp (Option.isSome_iff_ne_none.mpr h)
  have hcomps : (p.comps.any fun c =>
      (OsStr.toStr? c.asOsStr).isSome && c.asOsStr.head? == some dot) = true ↔
        ∃ c ∈ p.comps.map Component.asOsStr, c.head? = some dot := by
    rw [List.any_eq_true]
    constructor
    · rintro ⟨c, hc, hdot⟩
      exact ⟨c.asOsStr, List.mem_map_of_mem hc, by simpa using (Bool.and_eq_true_iff.mp hdot).2⟩
    · rintro ⟨_, hmem, hdot⟩
      obtain ⟨c, hc, rfl⟩ := List.mem_map.mp hmem
      exact ⟨c, hc, Bool.and_eq_true_iff.mpr ⟨isSome_toStr?.mpr (hvalid c hc), by simpa using hdot⟩⟩
  rw [hasHiddenComponents, Bool.or_eq_true, hcomps, PathBuf.Dotted, PathBuf.components]
  rcases p.anchor with - | - | - <;> simp [slash, dot]

/-! ### The map of a list -/

section RemoteTree

variable {rs : List FileStatus} {p : PathBuf} {r : FileStatus}

/-- With distinct paths the planner's map has the listed files and no others. -/
theorem getElem?_remoteTree_eq_some (hrs : (rs.map fun r => PathBuf.ofString r.path).Nodup) :
    (remoteTree rs)[p]? = some r ↔ r ∈ rs ∧ PathBuf.ofString r.path = p := by
  classical
  let _ : BEq PathBuf := instBEqOfDecidableEq
  have hpair : (rs.map fun r => (PathBuf.ofString r.path, r)).Pairwise
      fun a b => ¬ compare a.1 b.1 = .eq := by
    rw [List.pairwise_map]
    refine (List.pairwise_map.mp hrs).imp fun hne heq => hne (compare_eq_iff.mp heq)
  have hmem : ∀ r ∈ rs, (remoteTree rs)[PathBuf.ofString r.path]? = some r := fun r hr =>
    Std.TreeMap.getElem?_ofList_of_mem (k := PathBuf.ofString r.path)
      (compare_eq_iff.mpr rfl) hpair (List.mem_map.mpr ⟨r, hr, rfl⟩)
  constructor
  · intro h
    by_contra hnot
    have hnone : (remoteTree rs)[p]? = none := by
      refine Std.TreeMap.getElem?_ofList_of_contains_eq_false ?_
      simp only [List.contains_eq_mem, List.mem_map, decide_eq_false_iff_not]
      rintro ⟨-, ⟨r', hr', rfl⟩, rfl⟩
      obtain rfl := Option.some.inj ((hmem r' hr').symm.trans h)
      exact hnot ⟨hr', rfl⟩
    cases h.symm.trans hnone
  · rintro ⟨hr, rfl⟩
    exact hmem r hr

theorem getElem?_remoteTree_ne_none (hrs : (rs.map fun r => PathBuf.ofString r.path).Nodup) :
    (remoteTree rs)[p]? ≠ none ↔ ∃ r ∈ rs, PathBuf.ofString r.path = p := by
  rw [Option.ne_none_iff_exists']
  exact exists_congr fun r => getElem?_remoteTree_eq_some hrs

end RemoteTree

/-! ### The listing of a state -/

/-- The file status of a file. -/
def statusOf (path : PathBuf) (metadata : FileMetadata) : Except HarmonicError FileStatus :=
  FileStatus.tryFrom ⟨path, .added, metadata.hash, metadata.modifiedTs⟩

/-- Every file of a state, each as an added file is sent. -/
def SyncState.listing (s : SyncState) : Except HarmonicError (List FileStatus) :=
  s.tree.toList.mapM fun e => statusOf e.1 e.2

section Listing

variable {s : SyncState} {rs : List FileStatus}

/-- The paths of a listing are those of the state, in its order. -/
theorem map_path_listing (h : s.listing = .ok rs) :
    rs.map (fun r => PathBuf.ofString r.path) = s.tree.keys := by
  have hall := mapM_eq_ok_iff.mp h
  rw [← Std.TreeMap.map_fst_toList_eq_keys]
  generalize s.tree.toList = es at hall
  clear h
  induction hall with
  | nil => rfl
  | cons he _ ih => rw [List.map_cons, List.map_cons, ih, (tryFrom_eq_ok he).1]

theorem nodup_listing (h : s.listing = .ok rs) :
    (rs.map fun r => PathBuf.ofString r.path).Nodup := by
  rw [map_path_listing h]
  refine Std.TreeMap.ordered_keys.imp fun hlt heq => ?_
  rw [compare_eq_iff.mpr heq] at hlt
  cases hlt

/-- **The listing tells the state.** -/
theorem remoteTree_listing (h : s.listing = .ok rs) (p : PathBuf) :
    Option.Rel (fun (m : FileMetadata) (r : FileStatus) =>
      r.hash = m.hash.toBytes ∧ r.timestamp = some m.modifiedTs)
      s.tree[p]? (remoteTree rs)[p]? := by
  rcases hs : s.tree[p]? with - | m
  · have hnone : (remoteTree rs)[p]? = none := by
      by_contra hsome
      obtain ⟨r, hr, hp⟩ := (getElem?_remoteTree_ne_none (nodup_listing h)).mp hsome
      have hkey : p ∈ s.tree.keys := by
        rw [← map_path_listing h]
        exact List.mem_map.mpr ⟨r, hr, hp⟩
      exact mem_keys_iff.mp hkey hs
    rw [hnone]
    exact .none
  · have hentry : (p, m) ∈ s.tree.toList :=
      Std.TreeMap.mem_toList_iff_getElem?_eq_some.mpr hs
    obtain ⟨r, hr, hstatus⟩ := exists_of_mem_of_mapM h hentry
    obtain ⟨hpath, hts, hhash⟩ := tryFrom_eq_ok hstatus
    rw [(getElem?_remoteTree_eq_some (nodup_listing h)).mpr ⟨hr, hpath⟩]
    exact .some ⟨hhash, hts⟩

end Listing

end Harmonic
