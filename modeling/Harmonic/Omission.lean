/-
Harmonic/Omission.lean

Files that a state leaves out.

The walk treats failures in three ways: an error of `WalkDir` is dropped, an
entry without metadata counts as no file, and a file that cannot be read makes
`generate_state` fail.  Only the last one is told to the caller.  So a state is
complete if the walk shows every tracked file, and if it does not the only hope
is that some other file cannot be read (`no_omission_iff`).
-/
import Harmonic.Differences
import Harmonic.Hidden

namespace Harmonic

open Storage (Failure)

section Omission

variable (D : Crates) (read : PathBuf → Except Failure Bytes)
  (modified : PathBuf → Except Failure Timestamp) (rootPath : PathBuf) (t : DirTree)
  (walk : List (Option DirEntry)) (ignoreHidden : Bool) (now : Int)

/-- No file is silently omitted: the state, if there is one, has every tracked
file, and whatever it is compared with, no tracked file is reported as removed. -/
def NoOmission : Prop :=
  ∀ state, generateState D read modified rootPath now walk ignoreHidden = .ok state →
    (∀ ns, Tracked t rootPath ignoreHidden ns → PathBuf.ofNames ns ∈ state.tree) ∧
    ∀ before, ∀ d ∈ compareStates before state, d.change = .removed →
      ∀ ns, Tracked t rootPath ignoreHidden ns → d.path ≠ .ofNames ns

variable {D read modified rootPath t walk ignoreHidden now}

/-- What the state has is not reported as removed. -/
theorem ne_of_removed {before state : SyncState} {d : Diff} (hd : d ∈ compareStates before state)
    (hremoved : d.change = .removed) {p : PathBuf} (hp : p ∈ state.tree) : d.path ≠ p := by
  rintro rfl
  obtain ⟨q, -, hdiff⟩ := mem_compareStates.mp hd
  obtain rfl := path_of_diffAt hdiff
  have hnone := ((diffAt_classified hdiff).removed_iff.mp hremoved).2
  rw [Std.TreeMap.mem_iff_isSome_getElem?, hnone] at hp
  cases hp

/-- What only the earlier state has is. -/
theorem exists_removed {before state : SyncState} {p : PathBuf}
    (hp : hasHiddenComponents p = false) (hbefore : p ∈ before.tree) (hstate : p ∉ state.tree) :
    ∃ d ∈ compareStates before state, d.path = p ∧ d.change = .removed := by
  rw [Std.TreeMap.mem_iff_isSome_getElem?, Option.isSome_iff_exists] at hbefore
  rw [Std.TreeMap.mem_iff_isSome_getElem?, Bool.not_eq_true, Option.isSome_eq_false_iff,
    Option.isNone_iff_eq_none] at hstate
  obtain ⟨m, hm⟩ := hbefore
  refine ⟨⟨p, .removed, m.hash, m.modifiedTs⟩, mem_compareStates.mpr ⟨p, hp, ?_⟩, rfl, rfl⟩
  rw [hstate, hm]
  rfl

/-- **When no file is silently omitted.**  Whatever fails: exactly if some
tracked file that the walk shows cannot be read, so that there is no state, or
the walk shows every tracked file. -/
theorem no_omission_iff {failures : WalkFailures} (hwalk : Yields t failures rootPath walk) :
    NoOmission D read modified rootPath t walk ignoreHidden now ↔
      (∃ ns, Tracked t rootPath ignoreHidden ns ∧ failures.Shows ns ∧
        ∀ m, FileMetadata.new D read modified (rootPath.below ns) ≠ .ok m) ∨
      ∀ ns, Tracked t rootPath ignoreHidden ns → failures.Shows ns := by
  constructor
  · intro h
    by_contra hnot
    obtain ⟨hread, hshows⟩ := not_or.mp hnot
    push Not at hread
    -- all that is shown can be read: there is a state, and it has what is shown
    obtain ⟨state, hstate⟩ : ∃ state,
        generateState D read modified rootPath now walk ignoreHidden = .ok state :=
      (exists_state_iff hwalk).mpr hread
    apply hshows
    intro ns htracked
    exact ((mem_tree_iff hwalk hstate ns).mp ((h state hstate).1 ns htracked)).2
  · rintro (⟨ns, htracked, hshows, hread⟩ | hshows) state hstate
    · obtain ⟨m, hm⟩ := (exists_state_iff hwalk).mp ⟨state, hstate⟩ ns htracked hshows
      exact absurd hm (hread m)
    · have hall : ∀ ns, Tracked t rootPath ignoreHidden ns → PathBuf.ofNames ns ∈ state.tree :=
        fun ns htracked => (mem_tree_iff hwalk hstate ns).mpr ⟨htracked, hshows ns htracked⟩
      exact ⟨hall, fun before d hd hremoved ns htracked =>
        ne_of_removed hd hremoved (hall ns htracked)⟩

end Omission

/-! ### A tree of one file -/

theorem tracked_oneFile (content : Bytes) :
    Tracked (.oneFile nameA content) (.ofString "data") true [nameA] :=
  (tracked_iff (utf8Names_oneFile content)).mpr ⟨by decide, visible_oneFile content⟩

/-- With nothing failing, nothing is left out. -/
theorem no_omission_complete :
    NoOmission sampleCrates (fun _ => .ok [1]) (fun _ => .ok ⟨0, 0⟩) (.ofString "data")
      (.oneFile nameA [1]) (oneFileWalk (.ofString "data") nameA (some true)) true 0 :=
  (no_omission_iff (yields_oneFileWalk (.ofString "data") nameA [1])).mpr
    (.inr fun ns _ => shows_none ns)

/-- The read of the root breaks off before the file. -/
def lostA : WalkFailures := ⟨fun ns => ns = [nameA], fun _ => False⟩

/-- The call for the file's metadata fails. -/
def noMetadataA : WalkFailures := ⟨fun _ => False, fun ns => ns = [nameA]⟩

theorem yields_lostA (root : PathBuf) (content : Bytes) :
    Yields (.oneFile nameA content) lostA root [some ⟨root.below [], some false⟩, none] := by
  have hroot : lostA.Shows [] := by
    refine ⟨?_, id⟩
    rintro above habove rfl
    cases List.prefix_nil.mp habove
  rw [yields_oneFile_iff hroot]
  intro e
  simp [lostA]

theorem yields_noMetadataA (root : PathBuf) (content : Bytes) :
    Yields (.oneFile nameA content) noMetadataA root (oneFileWalk root nameA none) := by
  have hroot : noMetadataA.Shows [] := ⟨fun _ _ => id, (List.cons_ne_nil _ _).symm⟩
  rw [yields_oneFile_iff hroot]
  intro e
  simp [oneFileWalk, noMetadataA]

/-- The state of these entries, all files being readable. -/
def stateOfWalk (walk : List (Option DirEntry)) : Except HarmonicError SyncState :=
  generateState sampleCrates (fun _ => .ok [1]) (fun _ => .ok ⟨0, 0⟩) (.ofString "data") 0 walk true

/-- A failure that hides the file: there is a state without it, and next to the
state of the same tree from before the file counts as removed. -/
theorem omitted_of_not_shown {failures : WalkFailures} {walk : List (Option DirEntry)}
    (hwalk : Yields (.oneFile nameA [1]) failures (.ofString "data") walk)
    (hhides : ¬ failures.Shows [nameA]) :
    ∃ before state, stateOfWalk (oneFileWalk (.ofString "data") nameA (some true)) = .ok before ∧
      stateOfWalk walk = .ok state ∧ PathBuf.ofNames [nameA] ∉ state.tree ∧
      ∃ d ∈ compareStates before state, d.path = .ofNames [nameA] ∧ d.change = .removed := by
  have hstands := standsAt_oneFile (.ofString "data") nameA [1]
  obtain ⟨before, hbefore⟩ := hstands.exists_state sampleCrates 0
  have hread : ∀ ns, Tracked (.oneFile nameA [1]) (.ofString "data") true ns →
      failures.Shows ns → ∃ m, FileMetadata.new sampleCrates (fun _ => .ok [1])
        (fun _ => .ok ⟨0, 0⟩) ((PathBuf.ofString "data").below ns) = .ok m :=
    fun _ _ _ => ⟨_, rfl⟩
  -- what is shown can be read, so the loop succeeds without the file
  obtain ⟨state, hstate⟩ := (exists_state_iff hwalk).mpr hread
  have hin : PathBuf.ofNames [nameA] ∈ before.tree :=
    (mem_tree_iff hstands.walk hbefore _).mpr ⟨tracked_oneFile [1], shows_none _⟩
  have hout : PathBuf.ofNames [nameA] ∉ state.tree := fun hmem =>
    hhides ((mem_tree_iff hwalk hstate _).mp hmem).2
  exact ⟨before, state, hbefore, hstate, hout, exists_removed (by decide) hin hout⟩

/-- **A directory that cannot be read to its end, or an entry without metadata**:
there is a state, the file is not in it, and it is reported as removed. -/
theorem file_silently_omitted :
    Tracked (.oneFile nameA [1]) (.ofString "data") true [nameA] ∧
      ∀ walk ∈ [[some ⟨(PathBuf.ofString "data").below [], some false⟩, none],
          oneFileWalk (.ofString "data") nameA none],
        (∃ failures, Yields (.oneFile nameA [1]) failures (.ofString "data") walk) ∧
        ¬ NoOmission sampleCrates (fun _ => .ok [1]) (fun _ => .ok ⟨0, 0⟩) (.ofString "data")
          (.oneFile nameA [1]) walk true 0 ∧
        ∃ before state,
          stateOfWalk (oneFileWalk (.ofString "data") nameA (some true)) = .ok before ∧
          stateOfWalk walk = .ok state ∧
          ∃ d ∈ compareStates before state, d.path = .ofNames [nameA] ∧ d.change = .removed := by
  have hwalks : ∀ walk ∈ [[some ⟨(PathBuf.ofString "data").below [], some false⟩, none],
      oneFileWalk (.ofString "data") nameA none], ∃ failures : WalkFailures,
        Yields (.oneFile nameA [1]) failures (.ofString "data") walk ∧
          ¬ failures.Shows [nameA] := by
    intro walk hwalk
    rcases List.mem_pair.mp hwalk with rfl | rfl
    · exact ⟨lostA, yields_lostA _ [1], fun h => h.1 [nameA] List.prefix_rfl rfl⟩
    · exact ⟨noMetadataA, yields_noMetadataA _ [1], fun h => h.2 rfl⟩
  refine ⟨tracked_oneFile [1], fun walk hwalk => ?_⟩
  obtain ⟨failures, hyields, hhides⟩ := hwalks walk hwalk
  obtain ⟨before, state, hbefore, hstate, hout, hremoved⟩ := omitted_of_not_shown hyields hhides
  exact ⟨⟨failures, hyields⟩, fun h => hout ((h state hstate).1 _ (tracked_oneFile [1])), before,
    state, hbefore, hstate, hremoved⟩

end Harmonic
