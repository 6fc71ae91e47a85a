/-
Harmonic/Differences.lean

The differences between two states, path by path.

`Classified` is what a diff has to be for a path with given entries before and
now.  `compareStates` gives one at every visible path where the entries differ,
in ascending order and nowhere else, and with the states exchanged it gives the
exchanged diffs (`forall₂_swapped`).
-/
import Harmonic.Listing
import Harmonic.Replicas

namespace Harmonic

open SortedKeys

/-! ### One path -/

/-- Why a path with these entries has a diff, and what the diff says. -/
structure Classified (before now : Option FileMetadata) (d : Diff) : Prop where
  added_iff : d.change = .added ↔ before = none ∧ now ≠ none
  removed_iff : d.change = .removed ↔ before ≠ none ∧ now = none
  modified_iff : d.change = .modified ↔
    ∃ b n, before = some b ∧ now = some n ∧ n.hash ≠ b.hash
  added : d.change = .added → now = some ⟨d.hash, d.modifiedTs⟩
  removed : d.change = .removed → before = some ⟨d.hash, d.modifiedTs⟩

theorem diffAt_classified {p : PathBuf} {before now : Option FileMetadata} {d : Diff}
    (h : diffAt p now before = some d) : Classified before now d := by
  rcases now with - | n <;> rcases before with - | b
  · cases h
  · obtain rfl := Option.some.inj h
    constructor <;> simp
  · obtain rfl := Option.some.inj h
    constructor <;> simp
  · unfold diffAt at h
    simp only at h
    split at h
    · rename_i hhash
      obtain rfl := Option.some.inj h
      constructor <;> simp [hhash]
    · cases h

/-- There is a diff exactly where the contents differ. -/
theorem diffAt_eq_none_iff {p : PathBuf} {before now : Option FileMetadata} :
    diffAt p now before = none ↔ before.map FileMetadata.hash = now.map FileMetadata.hash := by
  rcases now with - | n <;> rcases before with - | b
  · simp [diffAt]
  · simp [diffAt]
  · simp [diffAt]
  · rw [Option.map_some, Option.map_some, Option.some.injEq, eq_comm (a := b.hash)]
    simp [diffAt]

/-- The other way round. -/
def ChangeType.swap : ChangeType → ChangeType
  | .added => .removed
  | .removed => .added
  | .modified => .modified

/-- The same difference, seen from the other state. -/
structure Swapped (before now : SyncState) (d d' : Diff) : Prop where
  path : d'.path = d.path
  change : d'.change = d.change.swap
  metadata : (∀ b n, before.tree[d.path]? = some b → now.tree[d.path]? = some n →
    b.modifiedTs ≠ n.modifiedTs) → d'.hash = d.hash ∧ d'.modifiedTs = d.modifiedTs

theorem diffAt_swapped (before now : SyncState) (p : PathBuf) :
    Option.Rel (Swapped before now) (diffAt p now.tree[p]? before.tree[p]?)
      (diffAt p before.tree[p]? now.tree[p]?) := by
  rcases hn : now.tree[p]? with - | n <;> rcases hb : before.tree[p]? with - | b
  · exact .none
  · exact .some ⟨rfl, rfl, fun _ => ⟨rfl, rfl⟩⟩
  · exact .some ⟨rfl, rfl, fun _ => ⟨rfl, rfl⟩⟩
  · by_cases hhash : n.hash = b.hash
    · simp only [diffAt, hhash, ne_eq, not_true_eq_false, if_false]
      exact .none
    · simp only [diffAt, hhash, Ne.symm hhash, ne_eq, not_false_eq_true, if_true]
      refine .some ⟨rfl, rfl, fun htimes => ?_⟩
      have hne := htimes b n hb hn
      -- of two different times one is later, and both sides take that one
      rcases h₁ : protoTimestampGt n.modifiedTs b.modifiedTs with - | -
      · rcases h₂ : protoTimestampGt b.modifiedTs n.modifiedTs with - | -
        · exact absurd (protoTimestampGt_total h₂ h₁) hne
        · exact ⟨rfl, rfl⟩
      · rw [protoTimestampGt_asymm h₁]
        exact ⟨rfl, rfl⟩

/-! ### The walk -/

section Walk

variable {before now : SyncState} {d : Diff} {p : PathBuf}

/-- A diff is that of its own path. -/
theorem diffAt_of_mem (h : d ∈ compareStates before now) :
    hasHiddenComponents d.path = false ∧
      diffAt d.path now.tree[d.path]? before.tree[d.path]? = some d := by
  obtain ⟨p, hp, hd⟩ := mem_compareStates.mp h
  obtain rfl := path_of_diffAt hd
  exact ⟨hp, hd⟩

/-- The paths of the diffs ascend. -/
theorem pairwise_compareStates (before now : SyncState) :
    (compareStates before now).Pairwise fun d e => compare d.path e.path = .lt := by
  refine List.Pairwise.filterMap _ ?_ (pairwise_sortedKeys _)
  intro p q hpq d hd e he
  rw [path_of_diffAt hd, path_of_diffAt he]
  exact hpq

/-- **The exchanged comparison** gives the exchanged diffs, in the same order. -/
theorem forall₂_swapped (before now : SyncState) :
    List.Forall₂ (Swapped before now) (compareStates before now) (compareStates now before) := by
  have hpaths : visiblePaths now.tree before.tree = visiblePaths before.tree now.tree := by
    apply sortedKeys_congr
    intro p
    simp only [List.mem_filter, List.mem_append, or_comm]
  unfold compareStates
  rw [hpaths]
  refine List.rel_filterMap (R := (· = ·)) ?_ (List.forall₂_refl _)
  rintro p - rfl
  exact diffAt_swapped before now p

/-- A path of a state of texts is visible exactly if it has no dot in front of a
component. -/
theorem hasHiddenComponents_of_text (hbefore : Utf8Paths before) (hnow : Utf8Paths now)
    (hp : before.tree[p]? ≠ none ∨ now.tree[p]? ≠ none) :
    hasHiddenComponents p = false ↔ ¬ p.Dotted := by
  rw [← hasHiddenComponents_iff (hp.elim (hbefore p) (hnow p)), Bool.not_eq_true]

/-- A visible path with differing contents has its diff. -/
theorem exists_mem_compareStates (hbefore : Utf8Paths before) (hnow : Utf8Paths now)
    (hp : ¬ p.Dotted) (hne : before.contents p ≠ now.contents p) :
    ∃ d ∈ compareStates before now, d.path = p := by
  have hdiff : diffAt p now.tree[p]? before.tree[p]? ≠ none := by
    rw [Ne, diffAt_eq_none_iff]
    exact hne
  obtain ⟨d, hd⟩ := Option.ne_none_iff_exists'.mp hdiff
  refine ⟨d, mem_compareStates.mpr ⟨p, ?_, hd⟩, path_of_diffAt hd⟩
  refine (hasHiddenComponents_of_text hbefore hnow ?_).mpr hp
  by_contra hnone
  obtain ⟨hb, hn⟩ := not_or.mp hnone
  rw [not_not.mp hb, not_not.mp hn] at hdiff
  exact hdiff rfl

/-- Only a visible path with differing contents has a diff. -/
theorem contents_ne_of_mem (hbefore : Utf8Paths before) (hnow : Utf8Paths now)
    (h : d ∈ compareStates before now) :
    ¬ d.path.Dotted ∧ before.contents d.path ≠ now.contents d.path := by
  obtain ⟨hvis, hd⟩ := diffAt_of_mem h
  have hne : before.contents d.path ≠ now.contents d.path := by
    intro heq
    cases (diffAt_eq_none_iff.mpr heq).symm.trans hd
  refine ⟨(hasHiddenComponents_of_text hbefore hnow ?_).mp hvis, hne⟩
  by_contra hnone
  obtain ⟨hb, hn⟩ := not_or.mp hnone
  rw [SyncState.contents, SyncState.contents, not_not.mp hb, not_not.mp hn] at hne
  exact hne rfl

/-- There is no diff exactly when all visible contents are equal. -/
theorem compareStates_eq_nil_iff (hbefore : Utf8Paths before) (hnow : Utf8Paths now) :
    compareStates before now = [] ↔
      ∀ p : PathBuf, ¬ p.Dotted → before.contents p = now.contents p := by
  constructor
  · intro hnil p hp
    by_contra hne
    obtain ⟨d, hd, -⟩ := exists_mem_compareStates hbefore hnow hp hne
    rw [hnil] at hd
    cases hd
  · intro hall
    apply List.eq_nil_iff_forall_not_mem.mpr
    intro d hd
    obtain ⟨hvis, hne⟩ := contents_ne_of_mem hbefore hnow hd
    exact hne (hall d.path hvis)

/-- A kind of change that is told from the two entries of its path, and changes
the content, is reported exactly at the visible paths that have it. -/
theorem exists_change_iff (hbefore : Utf8Paths before) (hnow : Utf8Paths now) (hp : ¬ p.Dotted)
    {change : ChangeType} {P : Option FileMetadata → Option FileMetadata → Prop}
    (htold : ∀ {b n d}, Classified b n d → (d.change = change ↔ P b n))
    (hne : ∀ b n, P b n → b.map FileMetadata.hash ≠ n.map FileMetadata.hash) :
    (∃ d ∈ compareStates before now, d.path = p ∧ d.change = change) ↔
      P before.tree[p]? now.tree[p]? := by
  have hclass : ∀ d ∈ compareStates before now,
      Classified before.tree[d.path]? now.tree[d.path]? d := fun d hd =>
    diffAt_classified (diffAt_of_mem hd).2
  constructor
  · rintro ⟨d, hd, rfl, hchange⟩
    exact (htold (hclass d hd)).mp hchange
  · intro h
    obtain ⟨d, hd, rfl⟩ := exists_mem_compareStates hbefore hnow hp (hne _ _ h)
    exact ⟨d, hd, rfl, (htold (hclass d hd)).mpr h⟩

end Walk

/-- **Differences are classified exactly.**  One diff at most for a path, in
ascending order, none for a path with a dot in front of a component; each other
path has the diff that its two entries call for.  There is none exactly if the
states agree on the visible paths, and the exchanged comparison gives the
exchanged diffs. -/
theorem differences_exact {before now : SyncState} (hbefore : Utf8Paths before)
    (hnow : Utf8Paths now) :
    (compareStates before now).Pairwise (fun d e => compare d.path e.path = .lt) ∧
    (∀ d ∈ compareStates before now, ¬ d.path.Dotted ∧
      Classified before.tree[d.path]? now.tree[d.path]? d) ∧
    (∀ p : PathBuf, ¬ p.Dotted →
      ((∃ d ∈ compareStates before now, d.path = p ∧ d.change = .added) ↔
        before.tree[p]? = none ∧ now.tree[p]? ≠ none) ∧
      ((∃ d ∈ compareStates before now, d.path = p ∧ d.change = .removed) ↔
        before.tree[p]? ≠ none ∧ now.tree[p]? = none) ∧
      ((∃ d ∈ compareStates before now, d.path = p ∧ d.change = .modified) ↔
        ∃ b n, before.tree[p]? = some b ∧ now.tree[p]? = some n ∧ n.hash ≠ b.hash)) ∧
    (compareStates before now = [] ↔
      ∀ p : PathBuf, ¬ p.Dotted → before.contents p = now.contents p) ∧
    List.Forall₂ (Swapped before now) (compareStates before now) (compareStates now before) := by
  refine ⟨pairwise_compareStates before now, fun d hd => ⟨?_, ?_⟩, fun p hp => ⟨?_, ?_, ?_⟩,
    compareStates_eq_nil_iff hbefore hnow, forall₂_swapped before now⟩
  · exact (contents_ne_of_mem hbefore hnow hd).1
  · exact diffAt_classified (diffAt_of_mem hd).2
  · apply exists_change_iff hbefore hnow hp Classified.added_iff
    rintro - n ⟨rfl, hn⟩
    simpa [eq_comm] using hn
  · apply exists_change_iff hbefore hnow hp Classified.removed_iff
    rintro b - ⟨hb, rfl⟩
    simpa using hb
  · apply exists_change_iff hbefore hnow hp Classified.modified_iff
    rintro - - ⟨b, n, rfl, rfl, hhash⟩
    simpa using Ne.symm hhash

/-- `differences_exact` for a file that changed and was given its old time. -/
theorem differences_exact_same_time :
    List.Forall₂ (Swapped (sampleState [("a", 1, 10)]) (sampleState [("a", 2, 10)]))
      (compareStates (sampleState [("a", 1, 10)]) (sampleState [("a", 2, 10)]))
      (compareStates (sampleState [("a", 2, 10)]) (sampleState [("a", 1, 10)])) :=
  (differences_exact (utf8Paths_iff.mpr (by decide))
    (utf8Paths_iff.mpr (by decide))).2.2.2.2

/-! ### What the diffs say of the newer state -/

/-- Each diff for a path that is there now has the metadata of now. -/
def ReportsNow (before now : SyncState) : Prop :=
  ∀ d ∈ compareStates before now, ∀ n, now.tree[d.path]? = some n →
    d.hash = n.hash ∧ d.modifiedTs = n.modifiedTs

/-- The content that a diff gives its path. -/
def Diff.content (d : Diff) : Option Digest :=
  match d.change with
  | .added => some d.hash
  | .modified => some d.hash
  | .removed => none

/-- The contents before, with the diffs applied. -/
def patched (before now : SyncState) : PathBuf → Option Digest :=
  patch before.contents ((compareStates before now).map fun d => (d.path, d.content))

/-- Applied to the contents before, the diffs give those of now. -/
def PatchesToNow (before now : SyncState) : Prop :=
  ∀ p, hasHiddenComponents p = false → patched before now p = now.contents p

/-- A server that skips a file because it has the content that was reported has
the content that the client has now. -/
def SkipsHonestly (before now : SyncState) : Prop :=
  ∀ server plan, planFor before now server = .ok plan →
    ∀ a ∈ plan, a.direction = TransferDirection.skip.toI32 →
    ∀ d ∈ compareStates before now, d.path = PathBuf.ofString a.path →
    ∀ s n, server.tree[d.path]? = some s → d.hash = s.hash → now.tree[d.path]? = some n →
      s.hash = n.hash

/-- Every visible file that changed is newer than it was. -/
def ChangedLater (before now : SyncState) : Prop :=
  ∀ p b n, hasHiddenComponents p = false → before.tree[p]? = some b → now.tree[p]? = some n →
    n.hash ≠ b.hash → protoTimestampGt n.modifiedTs b.modifiedTs = true

section Now

variable {before now : SyncState}

/-- A file that changed is reported with the metadata that is newer, the old one
if none is. -/
theorem diffAt_modified {p : PathBuf} {b n : FileMetadata} (h : n.hash ≠ b.hash) :
    diffAt p (some n) (some b) =
      some (if protoTimestampGt n.modifiedTs b.modifiedTs then
        ⟨p, .modified, n.hash, n.modifiedTs⟩ else ⟨p, .modified, b.hash, b.modifiedTs⟩) := by
  simp only [diffAt, h, ne_eq, not_false_eq_true, if_true]
  split <;> rfl

theorem mem_compareStates_modified {p : PathBuf} {b n : FileMetadata}
    (hp : hasHiddenComponents p = false) (hb : before.tree[p]? = some b)
    (hn : now.tree[p]? = some n) (hhash : n.hash ≠ b.hash)
    (hgt : protoTimestampGt n.modifiedTs b.modifiedTs = false) :
    (⟨p, .modified, b.hash, b.modifiedTs⟩ : Diff) ∈ compareStates before now := by
  refine mem_compareStates.mpr ⟨p, hp, ?_⟩
  rw [hn, hb, diffAt_modified hhash, hgt]
  rfl

/-- If the changed files are newer then the diffs are those of now. -/
theorem ChangedLater.reportsNow (h : ChangedLater before now) : ReportsNow before now := by
  intro d hd n hn
  obtain ⟨hp, hdiff⟩ := diffAt_of_mem hd
  rcases hb : before.tree[d.path]? with - | b
  · rw [hn, hb] at hdiff
    obtain ⟨-, -, hhash, hts⟩ := Diff.mk.injEq .. ▸ Option.some.inj hdiff
    exact ⟨hhash.symm, hts.symm⟩
  · rw [hn, hb] at hdiff
    by_cases hhash : n.hash = b.hash
    · simp [diffAt, hhash] at hdiff
    · rw [diffAt_modified hhash, h d.path b n hp hb hn hhash] at hdiff
      have hd' := Option.some.inj hdiff
      rw [← hd']
      exact ⟨rfl, rfl⟩

theorem ReportsNow.changedLater (h : ReportsNow before now) : ChangedLater before now := by
  intro p b n hp hb hn hhash
  by_contra hgt
  have hmem := mem_compareStates_modified hp hb hn hhash (by simpa using hgt)
  exact hhash (h _ hmem n hn).1.symm

/-! ### Applying the diffs -/

/-- The diff of a path decides the content it is given. -/
theorem patched_of_mem {d : Diff} (hd : d ∈ compareStates before now) :
    patched before now d.path = d.content := by
  have hnd : (((compareStates before now).map fun d => (d.path, d.content)).map Prod.fst).Nodup := by
    rw [List.map_map]
    refine List.pairwise_map.mpr ((pairwise_compareStates before now).imp ?_)
    intro d e hlt heq
    rw [show d.path = e.path from heq, compare_eq_iff.mpr rfl] at hlt
    cases hlt
  exact patch_of_mem hnd (List.mem_map.mpr ⟨d, hd, rfl⟩)

/-- A path without a diff keeps its content. -/
theorem patched_of_forall_ne {p : PathBuf} (h : ∀ d ∈ compareStates before now, d.path ≠ p) :
    patched before now p = before.contents p := by
  apply patch_of_notMem
  simp only [List.map_map, List.mem_map, Function.comp_apply, not_exists, not_and]
  exact h

theorem ReportsNow.patchesToNow (h : ReportsNow before now) : PatchesToNow before now := by
  intro p hp
  rcases hdiff : diffAt p now.tree[p]? before.tree[p]? with - | d
  · -- no difference, no diff
    rw [patched_of_forall_ne]
    · exact diffAt_eq_none_iff.mp hdiff
    · rintro d hd rfl
      cases hdiff.symm.trans (diffAt_of_mem hd).2
  · have hd := mem_compareStates.mpr ⟨p, hp, hdiff⟩
    obtain rfl := path_of_diffAt hdiff
    have hclass := diffAt_classified hdiff
    rw [patched_of_mem hd, Diff.content]
    rcases hn : now.tree[d.path]? with - | n
    · have hchange : d.change = .removed := by
        rw [hclass.removed_iff]
        refine ⟨fun hb => ?_, hn⟩
        rw [hn, hb] at hdiff
        cases hdiff
      rw [hchange, SyncState.contents, hn]
      rfl
    · rw [SyncState.contents, hn, Option.map_some, ← (h d hd n hn).1]
      rcases hchange : d.change with - | - | -
      · rfl
      · cases hn.symm.trans (hclass.removed_iff.mp hchange).2
      · rfl

/-- **Applying the diffs** gives the contents of now exactly if every visible file
that changed is newer than it was. -/
theorem patchesToNow_iff : PatchesToNow before now ↔ ChangedLater before now := by
  constructor
  · intro h p b n hp hb hn hhash
    by_contra hgt
    have hmem := mem_compareStates_modified hp hb hn hhash (by simpa using hgt)
    have hpatched := (patched_of_mem hmem).symm.trans (h p hp)
    rw [SyncState.contents, hn] at hpatched
    exact hhash (Option.some.inj hpatched).symm
  · intro h
    exact h.reportsNow.patchesToNow

/-! ### The server's answer -/

theorem ChangedLater.skipsHonestly (h : ChangedLater before now) : SkipsHonestly before now := by
  intro server plan _ a _ _ d hd _ s n _ hhash hn
  exact hhash.symm.trans (h.reportsNow d hd n hn).1

/-- A server that has just the old content of a file skips it on the report. -/
theorem skipsHonestly_iff (hbefore : Utf8Paths before) (hnow : Utf8Paths now) :
    SkipsHonestly before now ↔ ChangedLater before now := by
  constructor
  · intro h p b n hp hb hn hhash
    by_contra hgt
    have hmem := mem_compareStates_modified hp hb hn hhash (by simpa using hgt)
    let server : SyncState := ⟨0, Std.TreeMap.ofList [(p, b)] compare⟩
    have hserver : server.tree[p]? = some b := by
      refine Std.TreeMap.getElem?_ofList_of_mem (k := p) (compare_eq_iff.mpr rfl) ?_ ?_
      · exact List.pairwise_singleton _ _
      · exact List.mem_singleton_self _
    have htext : Utf8Paths server := by
      intro q hq
      have hmemq : q ∈ server.tree := Std.TreeMap.mem_keys.mp (mem_keys_iff.mpr hq)
      obtain rfl : p = q := by simpa [server, Std.TreeMap.mem_ofList] using hmemq
      exact hnow p (by simp [hn])
    obtain ⟨plan, hplan⟩ := planFor_isOk hbefore hnow htext
    obtain ⟨hdir, -, hpaths⟩ := planFor_spec hplan
    obtain ⟨a, ha, rfl⟩ := List.mem_map.mp ((hpaths p).mpr (.inl (by simp [hserver])))
    -- the report is the old metadata, which is the server's
    have hreported := reported_modified hp hn hb (Ne.symm hhash)
    rw [if_neg hgt] at hreported
    have hskip : a.direction = TransferDirection.skip.toI32 := by
      rw [hdir a ha, hserver, hreported]
      simp [newer]
    exact hhash (h server plan hplan a ha hskip _ hmem rfl b n hserver rfl hn).symm
  · exact ChangedLater.skipsHonestly

end Now

/-- **The diffs report what the client has now**, give it when applied, and are
skipped honestly, exactly if every visible file that changed is newer than it
was. -/
theorem reports_now_iff (before now : SyncState) :
    (ReportsNow before now ∧ PatchesToNow before now ∧ SkipsHonestly before now) ↔
      ChangedLater before now := by
  constructor
  · rintro ⟨hreports, -⟩
    exact hreports.changedLater
  · intro h
    exact ⟨h.reportsNow, h.reportsNow.patchesToNow, h.skipsHonestly⟩

/-- A file replaced by an older one is reported with the content it had before,
and a server that has that content is content with it. -/
theorem restored_file_reported_as_before :
    ¬ ReportsNow (sampleState [("a", 1, 20)]) (sampleState [("a", 2, 10)]) ∧
      ¬ PatchesToNow (sampleState [("a", 1, 20)]) (sampleState [("a", 2, 10)]) ∧
      ¬ SkipsHonestly (sampleState [("a", 1, 20)]) (sampleState [("a", 2, 10)]) := by
  have hnot : ¬ ChangedLater (sampleState [("a", 1, 20)]) (sampleState [("a", 2, 10)]) := by
    intro h
    have hgt := h (PathBuf.ofString "a") ⟨Vector.replicate 32 1, ⟨20, 0⟩⟩
      ⟨Vector.replicate 32 2, ⟨10, 0⟩⟩ (by decide) (by decide)
      (by decide) (by decide)
    exact absurd hgt (by decide)
  refine ⟨fun h => hnot h.changedLater, fun h => hnot (patchesToNow_iff.mp h), fun h => hnot ?_⟩
  exact (skipsHonestly_iff (utf8Paths_iff.mpr (by decide))
    (utf8Paths_iff.mpr (by decide))).mp h

end Harmonic
