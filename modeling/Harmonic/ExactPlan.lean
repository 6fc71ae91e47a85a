/-
Harmonic/ExactPlan.lean

The plan, action by action.

`Chosen` is what an action has to be for a path with given entries on the server
and in the list: the later version is copied, a missing one too, and the action
carries the time of the version that is copied.  The planner chooses so at every
path (`transferFor_chosen`), and a choice seen from the other side is the
mirrored one (`Chosen.mirror`): two sides that plan against each other's listing
agree on every transfer.
-/
import Harmonic.Listing
import Harmonic.Replicas

namespace Harmonic

open SortedKeys

/-! ### Times -/

/-- A timestamp in the order of time. -/
def Timestamp.instant (ts : Timestamp) : ℤ ×ₗ ℤ := toLex (ts.seconds, ts.nanos)

theorem protoTimestampGt_iff_instant {a b : Timestamp} :
    protoTimestampGt a b = true ↔ b.instant < a.instant := by
  rw [protoTimestampGt_iff, Timestamp.instant, Timestamp.instant, Prod.Lex.toLex_lt_toLex]
  simp only [eq_comm]

/-- The time of a listed file, zero if it has none. -/
def FileStatus.time (r : FileStatus) : Timestamp := r.timestamp.getD ⟨0, 0⟩

/-! ### One path -/

/-- The direction and the time of the action for a path with these entries on
the server and in the list. -/
structure Chosen (server : Option FileMetadata) (listed : Option FileStatus)
    (direction : TransferDirection) (ts : Timestamp) : Prop where
  download_iff : direction = .download ↔ ∃ s, server = some s ∧ (listed = none ∨
    ∃ r, listed = some r ∧ r.hash ≠ s.hash.toBytes ∧ r.time.instant < s.modifiedTs.instant)
  upload_iff : direction = .upload ↔ ∃ r, listed = some r ∧ (server = none ∨
    ∃ s, server = some s ∧ r.hash ≠ s.hash.toBytes ∧ s.modifiedTs.instant < r.time.instant)
  downloaded : direction = .download → ∃ s, server = some s ∧ ts = s.modifiedTs
  uploaded : direction = .upload → ∃ r, listed = some r ∧ ts = r.time

/-- **The planner chooses exactly so.** -/
theorem transferFor_chosen (server : Option FileMetadata) (listed : Option FileStatus) :
    Chosen server listed (transferFor server listed).1 (transferFor server listed).2 := by
  rcases server with - | s
  · -- the list alone, or neither
    rcases listed with - | r
    · constructor <;> simp [transferFor]
    · constructor <;> simp [transferFor, FileStatus.time, default]
  · rcases listed with - | r
    · -- the server alone
      constructor <;> simp [transferFor]
    · by_cases hhash : r.hash = s.hash.toBytes
      · constructor <;> simp [transferFor, hhash]
      · have hdown : protoTimestampGt s.modifiedTs r.time = true ↔ _ :=
          protoTimestampGt_iff_instant
        have hup : protoTimestampGt r.time s.modifiedTs = true ↔ _ :=
          protoTimestampGt_iff_instant
        have hchoice : transferFor (some s) (some r) =
            if protoTimestampGt s.modifiedTs r.time then (.download, s.modifiedTs)
            else if protoTimestampGt r.time s.modifiedTs then (.upload, r.time)
            else (.skip, s.modifiedTs) := by
          simp only [transferFor, hhash, ne_eq, not_false_eq_true, if_true]
          rfl
        rw [hchoice]
        rcases h₁ : protoTimestampGt s.modifiedTs r.time with - | -
        · rcases h₂ : protoTimestampGt r.time s.modifiedTs with - | -
          · constructor <;> simp_all
          · constructor <;> simp_all
        · have h₂ := protoTimestampGt_asymm h₁
          constructor <;> simp_all

/-- A listed file that tells what a file of a state is. -/
def Tells (m : FileMetadata) (r : FileStatus) : Prop :=
  r.hash = m.hash.toBytes ∧ r.timestamp = some m.modifiedTs

theorem Tells.time {m : FileMetadata} {r : FileStatus} (h : Tells m r) :
    r.time = m.modifiedTs := by
  rw [FileStatus.time, h.2, Option.getD_some]

/-- What the choice is when the list tells a state. -/
theorem Chosen.told {a b : Option FileMetadata} {r : Option FileStatus} {d : TransferDirection}
    {ts : Timestamp} (h : Chosen a r d ts) (hr : Option.Rel Tells b r) :
    (d = .download ↔ ∃ s, a = some s ∧ (b = none ∨
      ∃ m, b = some m ∧ m.hash ≠ s.hash ∧ m.modifiedTs.instant < s.modifiedTs.instant)) ∧
    (d = .upload ↔ ∃ m, b = some m ∧ (a = none ∨
      ∃ s, a = some s ∧ m.hash ≠ s.hash ∧ s.modifiedTs.instant < m.modifiedTs.instant)) ∧
    (d = .download → ∃ s, a = some s ∧ ts = s.modifiedTs) ∧
    (d = .upload → ∃ m, b = some m ∧ ts = m.modifiedTs) := by
  obtain ⟨hdown, hup, hdowned, huped⟩ := h
  -- there is a file and it is told truly, or there is none
  rcases hr with htells | -
  · rename_i m r
    have htime := htells.time
    have hhash : ∀ s : FileMetadata, r.hash ≠ s.hash.toBytes ↔ m.hash ≠ s.hash := fun s => by
      rw [htells.1, Digest.toBytes_injective.ne_iff]
    refine ⟨?_, ?_, hdowned, ?_⟩
    · simpa [htime, hhash] using hdown
    · simpa [htime, hhash] using hup
    · intro hd
      obtain ⟨r', hr', hts⟩ := huped hd
      obtain rfl := Option.some.inj hr'
      exact ⟨m, rfl, hts.trans htime⟩
  · exact ⟨by simpa using hdown, by simpa using hup, hdowned, by simpa using huped⟩

/-- **From the other side** the choice is the mirrored one. -/
theorem Chosen.mirror {a b : Option FileMetadata} {ra rb : Option FileStatus}
    {d d' : TransferDirection} {ts ts' : Timestamp} (h : Chosen a rb d ts)
    (h' : Chosen b ra d' ts') (ha : Option.Rel Tells a ra) (hb : Option.Rel Tells b rb) :
    (d = .download ↔ d' = .upload) ∧ (d = .upload ↔ d' = .download) ∧ (d ≠ .skip → ts = ts') := by
  obtain ⟨hdown, hup, hdowned, huped⟩ := h.told hb
  obtain ⟨hdown', hup', hdowned', huped'⟩ := h'.told ha
  have hswap : d = .download ↔ d' = .upload := by
    rw [hdown, hup']
    simp only [ne_comm]
  have hswap' : d = .upload ↔ d' = .download := by
    rw [hup, hdown']
    simp only [ne_comm]
  refine ⟨hswap, hswap', fun hskip => ?_⟩
  -- the file that moves is the one that gives its time to both
  rcases d with - | - | -
  · exact absurd rfl hskip
  · obtain ⟨s, hs, hts⟩ := hdowned rfl
    obtain ⟨s', hs', hts'⟩ := huped' (hswap.mp rfl)
    obtain rfl := Option.some.inj (hs.symm.trans hs')
    exact hts.trans hts'.symm
  · obtain ⟨s, hs, hts⟩ := huped rfl
    obtain ⟨s', hs', hts'⟩ := hdowned' (hswap'.mp rfl)
    obtain rfl := Option.some.inj (hs.symm.trans hs')
    exact hts.trans hts'.symm

/-! ### The walk -/

section Plan

variable {stateNow : SyncState} {remoteFiles : List FileStatus} {plan : List FileAction}

/-- The paths of the plan, in order. -/
theorem map_path_plan (h : generateSyncPlan stateNow remoteFiles = .ok plan) :
    plan.map (fun a => PathBuf.ofString a.path) =
      sortedKeys (stateNow.tree.keys ++ (remoteTree remoteFiles).keys) := by
  have hall := mapM_eq_ok_iff.mp h
  generalize sortedKeys (stateNow.tree.keys ++ (remoteTree remoteFiles).keys) = ps at hall
  clear h
  induction hall with
  | nil => rfl
  | cons ha _ ih => rw [List.map_cons, ih, (actionAt_eq_ok ha).1]

/-- The planner stops at a path of the server that is not text, and at no other. -/
theorem generateSyncPlan_eq_error_iff (stateNow : SyncState) (remoteFiles : List FileStatus) :
    (∃ e, generateSyncPlan stateNow remoteFiles = .error e) ↔
      ∃ p : PathBuf, stateNow.tree[p]? ≠ none ∧ p.toStr? = none := by
  constructor
  · rintro ⟨e, he⟩
    by_contra hall
    push Not at hall
    obtain ⟨plan, hplan⟩ : ∃ plan, generateSyncPlan stateNow remoteFiles = .ok plan := by
      -- the keys of the remote tree come from texts, so only a local one can have none
      refine mapM_isOk fun p hp => ?_
      have htext : p.toStr? ≠ none := by
        rcases List.mem_append.mp (mem_sortedKeys.mp hp) with hp | hp
        · exact hall p (mem_keys_iff.mp hp)
        · have hkey := Std.TreeMap.mem_keys.mp hp
          obtain ⟨r, -, rfl⟩ : ∃ r ∈ remoteFiles, PathBuf.ofString r.path = p := by
            simpa [remoteTree, Std.TreeMap.mem_ofList, Function.comp_def] using hkey
          exact Option.isSome_iff_ne_none.mp (toStr?_ofString r.path)
      obtain ⟨s, hs⟩ := Option.ne_none_iff_exists'.mp htext
      unfold actionAt
      rw [hs]
      exact ⟨_, rfl⟩
    cases he.symm.trans hplan
  · rintro ⟨p, hp, htext⟩
    rcases hplan : generateSyncPlan stateNow remoteFiles with e | plan
    · exact ⟨e, rfl⟩
    · have hmem : p ∈ sortedKeys (stateNow.tree.keys ++ (remoteTree remoteFiles).keys) :=
        mem_sortedKeys.mpr (List.mem_append_left _ (mem_keys_iff.mpr hp))
      obtain ⟨a, -, ha⟩ := exists_of_mem_of_mapM hplan hmem
      unfold actionAt at ha
      rw [htext] at ha
      cases ha

end Plan

/-- The file that the list has for a path. -/
def fileAt (remoteFiles : List FileStatus) (p : PathBuf) : Option FileStatus :=
  remoteFiles.find? fun r => PathBuf.ofString r.path = p

/-- With distinct paths the planner's map answers like the list. -/
theorem getElem?_remoteTree_eq_fileAt {rs : List FileStatus}
    (hrs : (rs.map fun r => PathBuf.ofString r.path).Nodup) (p : PathBuf) :
    (remoteTree rs)[p]? = fileAt rs p := by
  rcases hfound : fileAt rs p with - | r
  · by_contra hsome
    obtain ⟨r, hr, hp⟩ := (getElem?_remoteTree_ne_none hrs).mp hsome
    have hno := List.find?_eq_none.mp hfound r hr
    exact hno (by simpa using hp)
  · have hp := List.find?_some hfound
    exact (getElem?_remoteTree_eq_some hrs).mpr
      ⟨List.mem_of_find?_eq_some hfound, by simpa using hp⟩

/-- The same transfer, seen from the two sides. -/
structure Mirrored (a b : FileAction) : Prop where
  path : a.path = b.path
  download_iff : a.direction = TransferDirection.download.toI32 ↔
    b.direction = TransferDirection.upload.toI32
  upload_iff : a.direction = TransferDirection.upload.toI32 ↔
    b.direction = TransferDirection.download.toI32
  timestamp : a.direction ≠ TransferDirection.skip.toI32 →
    a.timestampLatestModified = b.timestampLatestModified

/-- Two walks over the same paths give lists that correspond if the values at
each path do. -/
theorem forall₂_of_mapM {α β γ ε : Type*} {f : α → Except ε β} {g : α → Except ε γ}
    {R : β → γ → Prop} {xs : List α} {ys : List β} {zs : List γ} (hf : xs.mapM f = .ok ys)
    (hg : xs.mapM g = .ok zs) (h : ∀ x y z, f x = .ok y → g x = .ok z → R y z) :
    List.Forall₂ R ys zs := by
  have hys := mapM_eq_ok_iff.mp hf
  have hzs := mapM_eq_ok_iff.mp hg
  clear hf hg
  induction hys generalizing zs with
  | nil =>
    cases hzs
    exact .nil
  | cons hy _ ih =>
    rcases hzs with - | ⟨hz, hzs⟩
    exact .cons (h _ _ _ hy hz) (ih hzs)

section Mirror

variable {A B : SyncState} {listA listB : List FileStatus}

/-- Planning against each other's listing is a walk over the same paths. -/
theorem sortedKeys_listing (hA : A.listing = .ok listA) (hB : B.listing = .ok listB) :
    sortedKeys (A.tree.keys ++ (remoteTree listB).keys) =
      sortedKeys (B.tree.keys ++ (remoteTree listA).keys) := by
  have hkeys : ∀ {S : SyncState} {rs : List FileStatus}, S.listing = .ok rs →
      ∀ p, p ∈ (remoteTree rs).keys ↔ p ∈ S.tree.keys := by
    intro S rs hS p
    rw [mem_keys_iff, mem_keys_iff]
    have hrel := remoteTree_listing hS p
    generalize S.tree[p]? = m at hrel ⊢
    generalize (remoteTree rs)[p]? = r at hrel ⊢
    rcases hrel with - | - <;> simp
  apply sortedKeys_congr
  intro p
  rw [List.mem_append, List.mem_append, hkeys hA, hkeys hB, or_comm]

/-- A state of texts has a plan against any list. -/
theorem generateSyncPlan_isOk (hA : Utf8Paths A) (remoteFiles : List FileStatus) :
    ∃ plan, generateSyncPlan A remoteFiles = .ok plan := by
  rcases hplan : generateSyncPlan A remoteFiles with e | plan
  · obtain ⟨p, hp, htext⟩ := (generateSyncPlan_eq_error_iff A remoteFiles).mp ⟨e, hplan⟩
    exact absurd htext (hA p hp)
  · exact ⟨plan, rfl⟩

/-- A state of texts has a listing. -/
theorem listing_isOk (hA : Utf8Paths A) : ∃ listA, A.listing = .ok listA := by
  refine mapM_isOk fun e he => ?_
  have hget := Std.TreeMap.mem_toList_iff_getElem?_eq_some.mp he
  obtain ⟨s, hs⟩ := Option.ne_none_iff_exists'.mp (hA e.1 (by simp [hget]))
  unfold statusOf FileStatus.tryFrom
  rw [hs]
  exact ⟨_, rfl⟩

/-- **Both sides plan the same transfers.** -/
theorem forall₂_mirrored {planA planB : List FileAction} (hA : A.listing = .ok listA)
    (hB : B.listing = .ok listB) (hplanA : generateSyncPlan A listB = .ok planA)
    (hplanB : generateSyncPlan B listA = .ok planB) : List.Forall₂ Mirrored planA planB := by
  unfold generateSyncPlan at hplanA hplanB
  simp only at hplanA hplanB
  -- both plans go over the same keys in the same order
  rw [sortedKeys_listing hA hB] at hplanA
  refine forall₂_of_mapM hplanA hplanB fun p a b ha hb => ?_
  obtain ⟨hswap, hswap', hts⟩ := (transferFor_chosen A.tree[p]? (remoteTree listB)[p]?).mirror
    (transferFor_chosen B.tree[p]? (remoteTree listA)[p]?)
    (remoteTree_listing hA p) (remoteTree_listing hB p)
  have hinj := TransferDirection.toI32_injective
  obtain ⟨-, hdir, hstamp⟩ := actionAt_eq_ok ha
  obtain ⟨-, hdir', hstamp'⟩ := actionAt_eq_ok hb
  constructor
  · unfold actionAt at ha hb
    rcases hp : p.toStr? with - | s
    · rw [hp] at ha
      cases ha
    · rw [hp] at ha hb
      obtain rfl := Except.ok.inj ha
      obtain rfl := Except.ok.inj hb
      rfl
  · rw [hdir, hdir', hinj.eq_iff, hinj.eq_iff]
    exact hswap
  · rw [hdir, hdir', hinj.eq_iff, hinj.eq_iff]
    exact hswap'
  · rw [hdir, hinj.ne_iff, hstamp, hstamp']
    exact fun hskip => congrArg some (hts hskip)

end Mirror

/-- **The plan is exact and symmetric.**  It fails exactly at a path of the
server that is not text; else it has one action for each path of the two, in
ascending order, and each is as chosen.  Two sides that plan against each
other's listing plan the same transfers. -/
theorem plan_exact :
    (∀ (stateNow : SyncState) (remoteFiles : List FileStatus),
      (remoteFiles.map fun r => PathBuf.ofString r.path).Nodup →
      ((∃ e, generateSyncPlan stateNow remoteFiles = .error e) ↔
        ∃ p : PathBuf, stateNow.tree[p]? ≠ none ∧ p.toStr? = none) ∧
      ∀ plan, generateSyncPlan stateNow remoteFiles = .ok plan →
        (plan.map fun a => PathBuf.ofString a.path).Pairwise
          (fun p q => compare p q = .lt) ∧
        (∀ p, p ∈ plan.map (fun a => PathBuf.ofString a.path) ↔
          stateNow.tree[p]? ≠ none ∨ p ∈ remoteFiles.map fun r => PathBuf.ofString r.path) ∧
        ∀ a ∈ plan, ∃ direction ts, a.direction = direction.toI32 ∧
          a.timestampLatestModified = some ts ∧
          Chosen stateNow.tree[PathBuf.ofString a.path]?
            (fileAt remoteFiles (PathBuf.ofString a.path)) direction ts) ∧
    ∀ A B : SyncState, Utf8Paths A → Utf8Paths B →
      ∃ listA listB planA planB, A.listing = .ok listA ∧ B.listing = .ok listB ∧
        generateSyncPlan A listB = .ok planA ∧ generateSyncPlan B listA = .ok planB ∧
        List.Forall₂ Mirrored planA planB := by
  constructor
  · intro stateNow remoteFiles hrs
    refine ⟨generateSyncPlan_eq_error_iff stateNow remoteFiles, fun plan hplan => ⟨?_, ?_, ?_⟩⟩
    · rw [map_path_plan hplan]
      exact pairwise_sortedKeys _
    · intro p
      rw [map_path_plan hplan, mem_sortedKeys, List.mem_append, mem_keys_iff, mem_keys_iff,
        getElem?_remoteTree_ne_none hrs, List.mem_map]
    · intro a ha
      obtain ⟨p, -, hp⟩ := exists_of_mem_mapM hplan ha
      obtain ⟨rfl, hdir, hts⟩ := actionAt_eq_ok hp
      refine ⟨_, _, hdir, hts, ?_⟩
      rw [← getElem?_remoteTree_eq_fileAt hrs]
      exact transferFor_chosen _ _
  · intro A B hA hB
    obtain ⟨listA, hlistA⟩ := listing_isOk hA
    obtain ⟨listB, hlistB⟩ := listing_isOk hB
    obtain ⟨planA, hplanA⟩ := generateSyncPlan_isOk hA listB
    obtain ⟨planB, hplanB⟩ := generateSyncPlan_isOk hB listA
    exact ⟨listA, listB, planA, planB, hlistA, hlistB, hplanA, hplanB,
      forall₂_mirrored hlistA hlistB hplanA hplanB⟩

/-- `plan_exact` for a file without a time, and for two versions of one file. -/
theorem plan_exact_two :
    (∃ direction ts, TransferDirection.download.toI32 = direction.toI32 ∧
      some (⟨5, 0⟩ : Timestamp) = some ts ∧
      Chosen (sampleState [("a", 1, 5)]).tree[PathBuf.ofString "a"]?
        (fileAt [⟨"a", none, 0, []⟩] (PathBuf.ofString "a")) direction ts) ∧
    ∃ listA listB planA planB, (sampleState [("a", 1, 10)]).listing = .ok listA ∧
      (sampleState [("a", 2, 20)]).listing = .ok listB ∧
      generateSyncPlan (sampleState [("a", 1, 10)]) listB = .ok planA ∧
      generateSyncPlan (sampleState [("a", 2, 20)]) listA = .ok planB ∧
      List.Forall₂ Mirrored planA planB := by
  constructor
  · have hplan : generateSyncPlan (sampleState [("a", 1, 5)]) [⟨"a", none, 0, []⟩] =
        .ok [⟨"a", TransferDirection.download.toI32, some ⟨5, 0⟩⟩] := by decide
    exact ((plan_exact.1 _ [⟨"a", none, 0, []⟩] (by simp)).2 _ hplan).2.2 _
      (List.mem_singleton_self _)
  · exact plan_exact.2 (sampleState [("a", 1, 10)]) (sampleState [("a", 2, 20)])
      (utf8Paths_iff.mpr (by decide)) (utf8Paths_iff.mpr (by decide))

end Harmonic
