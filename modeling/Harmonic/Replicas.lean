/-
Harmonic/Replicas.lean

What a plan does to versions, to the two trees, and to deleted files.

`NewestWins`, `Converges` and `UploadsPresent` are the three things one wants of
a plan.  None holds for all states: each theorem says for which saved state and
trees it does.  The reason is one and the same: the planner treats a path that
the client did not list, because it did not change, like a path the client does
not have, and a listed deletion like a file it has.
-/
import Harmonic.Plan

namespace Harmonic

open SortedKeys

/-! ### Timestamps and reports -/

theorem protoTimestampGt_iff {a b : Timestamp} : protoTimestampGt a b = true ↔
    b.seconds < a.seconds ∨ a.seconds = b.seconds ∧ b.nanos < a.nanos := by
  simp [protoTimestampGt]

/-- Later than something not earlier. -/
theorem protoTimestampGt_of_not_gt {a b c : Timestamp} (h : protoTimestampGt a b = true)
    (h' : protoTimestampGt c b = false) : protoTimestampGt a c = true := by
  have h'' := mt protoTimestampGt_iff.mpr (by simp [h'] : ¬ protoTimestampGt c b = true)
  rw [protoTimestampGt_iff] at h ⊢
  omega

theorem protoTimestampGt_asymm {a b : Timestamp} (h : protoTimestampGt a b = true) :
    protoTimestampGt b a = false := by
  rw [← Bool.not_eq_true, protoTimestampGt_iff]
  rw [protoTimestampGt_iff] at h
  omega

/-- Of two different timestamps one is later. -/
theorem protoTimestampGt_total {a b : Timestamp} (h : protoTimestampGt a b = false)
    (h' : protoTimestampGt b a = false) : a = b := by
  have h₁ := mt protoTimestampGt_iff.mpr (by simp [h] : ¬ protoTimestampGt a b = true)
  have h₂ := mt protoTimestampGt_iff.mpr (by simp [h'] : ¬ protoTimestampGt b a = true)
  obtain ⟨as, an⟩ := a
  obtain ⟨bs, bn⟩ := b
  simp only at h₁ h₂
  obtain ⟨rfl, rfl⟩ : as = bs ∧ an = bn := by omega
  rfl

section Reports

variable {saved client : SyncState} {p : PathBuf} {c l : FileMetadata}

theorem reported_hidden (h : hasHiddenComponents p = true) : reported saved client p = none := by
  simp [reported, h]

/-- A new file is reported as it is. -/
theorem reported_added (hp : hasHiddenComponents p = false) (hc : client.tree[p]? = some c)
    (hl : saved.tree[p]? = none) : reported saved client p = some c := by
  simp [reported, hp, hc, hl, diffAt]

/-- An unchanged file is not reported. -/
theorem reported_unchanged (hc : client.tree[p]? = some c) (hl : saved.tree[p]? = some l)
    (h : l.hash = c.hash) : reported saved client p = none := by
  simp [reported, hc, hl, diffAt, h]

/-- A changed file is reported as it is, or as it was if it is not newer. -/
theorem reported_modified (hp : hasHiddenComponents p = false) (hc : client.tree[p]? = some c)
    (hl : saved.tree[p]? = some l) (h : l.hash ≠ c.hash) :
    reported saved client p =
      some (if protoTimestampGt c.modifiedTs l.modifiedTs then c else l) := by
  simp only [reported, hp, hc, hl, diffAt, Ne.symm h, ne_eq, not_false_eq_true, if_true,
    Bool.false_eq_true, if_false]
  split <;> rfl

/-- A deleted file is reported as it was. -/
theorem reported_removed (hp : hasHiddenComponents p = false) (hc : client.tree[p]? = none) :
    reported saved client p = saved.tree[p]? := by
  rcases hl : saved.tree[p]? with - | l <;> simp [reported, hp, hc, hl, diffAt]

end Reports

/-! ### Versions -/

/-- No transfer of the plan replaces a newer version by an older one. -/
def NewestWins (client server : SyncState) (plan : List FileAction) : Prop :=
  ∀ a ∈ plan, ∀ c s, client.tree[PathBuf.ofString a.path]? = some c →
    server.tree[PathBuf.ofString a.path]? = some s → c.hash ≠ s.hash →
    (a.direction = TransferDirection.download.toI32 →
      protoTimestampGt s.modifiedTs c.modifiedTs = true) ∧
    (a.direction = TransferDirection.upload.toI32 →
      protoTimestampGt c.modifiedTs s.modifiedTs = true)

/-- The list of changes does not hide a version that counts: where the two
sides differ, a file that is not listed is older than the server's, and a file
listed with its old metadata is newer if that metadata is. -/
def VersionsListed (saved client server : SyncState) : Prop :=
  ∀ (p : PathBuf) (c s : FileMetadata), client.tree[p]? = some c → server.tree[p]? = some s →
    c.hash ≠ s.hash →
    (hasHiddenComponents p = true ∨ (∃ l, saved.tree[p]? = some l ∧ l.hash = c.hash) →
      protoTimestampGt s.modifiedTs c.modifiedTs = true) ∧
    (hasHiddenComponents p = false → ∀ l, saved.tree[p]? = some l → l.hash ≠ c.hash →
      protoTimestampGt c.modifiedTs l.modifiedTs = false → l.hash ≠ s.hash →
      protoTimestampGt l.modifiedTs s.modifiedTs = true →
      protoTimestampGt c.modifiedTs s.modifiedTs = true)

/-- The direction for a file that differs from what is listed. -/
theorem newer_some {s m : FileMetadata} (h : m.hash ≠ s.hash) :
    (newer (some s) (some m) = .download ↔ protoTimestampGt s.modifiedTs m.modifiedTs = true) ∧
      (newer (some s) (some m) = .upload ↔
        protoTimestampGt m.modifiedTs s.modifiedTs = true) := by
  simp only [newer, h, if_false]
  rcases h₁ : protoTimestampGt s.modifiedTs m.modifiedTs with - | -
  · rcases h₂ : protoTimestampGt m.modifiedTs s.modifiedTs with - | - <;> simp
  · simp [protoTimestampGt_asymm h₁]

/-- At one path: the direction respects the versions exactly if the list does
not hide one. -/
theorem newer_respects_iff {saved client : SyncState} {p : PathBuf} {c s : FileMetadata}
    (hc : client.tree[p]? = some c) (hne : c.hash ≠ s.hash) :
    ((newer (some s) (reported saved client p) = .download →
        protoTimestampGt s.modifiedTs c.modifiedTs = true) ∧
      (newer (some s) (reported saved client p) = .upload →
        protoTimestampGt c.modifiedTs s.modifiedTs = true)) ↔
    (hasHiddenComponents p = true ∨ (∃ l, saved.tree[p]? = some l ∧ l.hash = c.hash) →
      protoTimestampGt s.modifiedTs c.modifiedTs = true) ∧
    (hasHiddenComponents p = false → ∀ l, saved.tree[p]? = some l → l.hash ≠ c.hash →
      protoTimestampGt c.modifiedTs l.modifiedTs = false → l.hash ≠ s.hash →
      protoTimestampGt l.modifiedTs s.modifiedTs = true →
      protoTimestampGt c.modifiedTs s.modifiedTs = true) := by
  have hself := newer_some hne
  rcases hp : hasHiddenComponents p with - | -
  · rcases hl : saved.tree[p]? with - | l
    · -- added: the report is the file
      rw [reported_added hp hc hl]
      simp [hself]
    · by_cases hlc : l.hash = c.hash
      · -- unchanged: no report, a download
        rw [reported_unchanged hc hl hlc]
        simp [newer, hlc]
      · rw [reported_modified hp hc hl hlc]
        rcases hgt : protoTimestampGt c.modifiedTs l.modifiedTs with - | -
        · -- changed, with the old metadata reported
          by_cases hls : l.hash = s.hash
          · simp [newer, hls, hne.symm]
          · have hold := newer_some hls
            have hdown : protoTimestampGt s.modifiedTs l.modifiedTs = true →
                protoTimestampGt s.modifiedTs c.modifiedTs = true :=
              fun h => protoTimestampGt_of_not_gt h hgt
            simp only [Bool.false_eq_true, if_false, hold, false_or, Option.some.injEq,
              exists_eq_left', hlc, false_implies, true_and, true_implies, forall_eq',
              not_false_eq_true, hls, ne_eq]
            exact ⟨fun h _ => h.2, fun h => ⟨hdown, h hgt⟩⟩
        · simp [hself, hlc, hgt]
  · rw [reported_hidden hp]
    simp [newer]

/-- **Newest version wins** exactly where the list of changes hides no version. -/
theorem newestWins_iff {saved client server : SyncState} {plan : List FileAction}
    (h : planFor saved client server = .ok plan) :
    NewestWins client server plan ↔ VersionsListed saved client server := by
  obtain ⟨hdir, -, hmem⟩ := planFor_spec h
  constructor
  · intro hwins p c s hc hs hne
    obtain ⟨a, ha, rfl⟩ := List.mem_map.mp ((hmem p).mpr (.inl (by simp [hs])))
    have hw := hwins a ha c s hc hs hne
    rw [hdir a ha, hs] at hw
    simp only [TransferDirection.toI32_injective.eq_iff] at hw
    exact (newer_respects_iff hc hne).mp hw
  · intro hlisted a ha c s hc hs hne
    rw [hdir a ha, hs]
    simp only [TransferDirection.toI32_injective.eq_iff]
    exact (newer_respects_iff hc hne).mpr (hlisted _ c s hc hs hne)

/-- A file that the client changed and listed: the newer version is uploaded. -/
theorem newestWins_upload :
    NewestWins (sampleState [("a", 2, 20)]) (sampleState [("a", 3, 15)])
        [⟨"a", TransferDirection.upload.toI32, some ⟨20, 0⟩⟩] ↔
      VersionsListed (sampleState [("a", 1, 10)]) (sampleState [("a", 2, 20)])
        (sampleState [("a", 3, 15)]) :=
  newestWins_iff (by decide)

/-- A file that has not changed since the last sync is not listed, and an older
version of the server is downloaded over it. -/
theorem unlisted_version_overwritten :
    planFor (sampleState [("a", 1, 10)]) (sampleState [("a", 1, 10)])
        (sampleState [("a", 2, 5)]) =
        .ok [⟨"a", TransferDirection.download.toI32, some ⟨5, 0⟩⟩] ∧
      ¬ NewestWins (sampleState [("a", 1, 10)]) (sampleState [("a", 2, 5)])
        [⟨"a", TransferDirection.download.toI32, some ⟨5, 0⟩⟩] := by
  refine ⟨by decide, fun h => ?_⟩
  have hlater := (h _ (List.mem_singleton_self _) ⟨Vector.replicate 32 1, ⟨10, 0⟩⟩
    ⟨Vector.replicate 32 2, ⟨5, 0⟩⟩ (by decide) (by decide)
    (by decide)).1 rfl
  exact absurd hlater (by decide)

/-! ### The two trees after the plan -/

/-- What each side holds at each path. -/
structure Replicas where
  client : PathBuf → Option Digest
  server : PathBuf → Option Digest

/-- The contents of a tree. -/
def SyncState.contents (s : SyncState) (p : PathBuf) : Option Digest :=
  s.tree[p]?.map FileMetadata.hash

/-- Copy the file at `p`, if there is one. -/
def copyFile (source target : PathBuf → Option Digest) (p : PathBuf) : PathBuf → Option Digest :=
  match source p with
  | some h => Function.update target p (some h)
  | none => target

/-- Carry out one action. -/
def Replicas.carryOut (r : Replicas) (a : FileAction) : Replicas :=
  let p := PathBuf.ofString a.path
  if a.direction = TransferDirection.upload.toI32 then
    ⟨r.client, copyFile r.client r.server p⟩
  else if a.direction = TransferDirection.download.toI32 then
    ⟨copyFile r.server r.client p, r.server⟩
  else r

/-- What a transfer in this direction leaves on the client and on the server. -/
def settle (d : TransferDirection) (c s : Option Digest) : Option Digest × Option Digest :=
  match d with
  | .upload => (c, c.or s)
  | .download => (s.or c, s)
  | .skip => (c, s)

theorem copyFile_self (source target : PathBuf → Option Digest) (p : PathBuf) :
    copyFile source target p p = (source p).or (target p) := by
  unfold copyFile
  rcases h : source p with - | x <;> simp

theorem copyFile_of_ne (source target : PathBuf → Option Digest) {p q : PathBuf} (h : q ≠ p) :
    copyFile source target p q = target q := by
  unfold copyFile
  rcases source p with - | x
  · rfl
  · exact Function.update_of_ne h _ _

/-- An action settles its own path. -/
theorem carryOut_self {r : Replicas} {a : FileAction} {p : PathBuf} {d : TransferDirection}
    (hp : PathBuf.ofString a.path = p) (hd : a.direction = d.toI32) :
    ((r.carryOut a).client p, (r.carryOut a).server p) = settle d (r.client p) (r.server p) := by
  subst hp
  unfold Replicas.carryOut
  rw [hd]
  rcases d with - | - | - <;>
    simp [TransferDirection.toI32_injective.eq_iff, settle, copyFile_self]

/-- An action leaves the other paths alone. -/
theorem carryOut_of_ne {r : Replicas} {a : FileAction} {p : PathBuf}
    (hp : p ≠ PathBuf.ofString a.path) :
    ((r.carryOut a).client p, (r.carryOut a).server p) = (r.client p, r.server p) := by
  unfold Replicas.carryOut
  simp only
  split
  · simp [copyFile_of_ne _ _ hp]
  · split
    · simp [copyFile_of_ne _ _ hp]
    · rfl

/-- Paths that no action names keep what they hold. -/
theorem foldl_carryOut_of_notMem {plan : List FileAction} {r : Replicas} {p : PathBuf}
    (h : p ∉ plan.map fun a => PathBuf.ofString a.path) :
    ((plan.foldl Replicas.carryOut r).client p, (plan.foldl Replicas.carryOut r).server p) =
      (r.client p, r.server p) := by
  induction plan generalizing r with
  | nil => rfl
  | cons a plan ih =>
    simp only [List.map_cons, List.mem_cons, not_or] at h
    rw [List.foldl_cons, ih h.2, carryOut_of_ne h.1]

/-- A path that one action names is settled by it. -/
theorem foldl_carryOut_of_mem {plan : List FileAction} {r : Replicas} {a : FileAction}
    {d : TransferDirection} (hnd : (plan.map fun a => PathBuf.ofString a.path).Nodup)
    (ha : a ∈ plan) (hd : a.direction = d.toI32) :
    ((plan.foldl Replicas.carryOut r).client (PathBuf.ofString a.path),
      (plan.foldl Replicas.carryOut r).server (PathBuf.ofString a.path)) =
      settle d (r.client (PathBuf.ofString a.path)) (r.server (PathBuf.ofString a.path)) := by
  induction plan generalizing r with
  | nil => cases ha
  | cons b plan ih =>
    obtain ⟨hb, hnd'⟩ := List.nodup_cons.mp hnd
    rw [List.foldl_cons]
    rcases List.mem_cons.mp ha with rfl | ha'
    · rw [foldl_carryOut_of_notMem hb, carryOut_self rfl hd]
    · have hne : PathBuf.ofString a.path ≠ PathBuf.ofString b.path := by
        intro he
        exact hb (List.mem_map.mpr ⟨a, ha', he⟩)
      obtain ⟨hcl, hsv⟩ := Prod.mk.inj (carryOut_of_ne (r := r) hne)
      rw [ih hnd' ha', hcl, hsv]

/-- **The plan settles every path** in the direction of what the server has and
the client reported. -/
theorem foldl_carryOut {saved client server : SyncState} {plan : List FileAction}
    (h : planFor saved client server = .ok plan) (r : Replicas) (p : PathBuf) :
    ((plan.foldl Replicas.carryOut r).client p, (plan.foldl Replicas.carryOut r).server p) =
      settle (newer server.tree[p]? (reported saved client p)) (r.client p) (r.server p) := by
  obtain ⟨hdir, hnd, hmem⟩ := planFor_spec h
  by_cases hp : p ∈ plan.map fun a => PathBuf.ofString a.path
  · obtain ⟨a, ha, rfl⟩ := List.mem_map.mp hp
    exact foldl_carryOut_of_mem hnd ha (hdir a ha)
  · rw [foldl_carryOut_of_notMem hp]
    have hnone := mt (hmem p).mpr hp
    obtain ⟨hs, hm⟩ := not_or.mp hnone
    rw [not_not.mp hs, not_not.mp hm]
    rfl

/-! ### Convergence -/

/-- Client and server hold the same files after the plan. -/
def Converges (client server : SyncState) (plan : List FileAction) : Prop :=
  (plan.foldl Replicas.carryOut ⟨client.contents, server.contents⟩).client =
    (plan.foldl Replicas.carryOut ⟨client.contents, server.contents⟩).server

/-- Nothing that the two sides disagree about is left out: a file unchanged
since the last sync is on the server, and a changed file that is listed with its
old metadata is not taken for the server's version or one of its age. -/
def NothingLeftOut (saved client server : SyncState) : Prop :=
  ∀ (p : PathBuf) (c l : FileMetadata), client.tree[p]? = some c → saved.tree[p]? = some l →
    (l.hash = c.hash → server.tree[p]? ≠ none) ∧
    (l.hash ≠ c.hash → protoTimestampGt c.modifiedTs l.modifiedTs = false →
      ∀ s, server.tree[p]? = some s → c.hash ≠ s.hash →
        l.hash ≠ s.hash ∧ l.modifiedTs ≠ s.modifiedTs)

/-- What the walk over all paths needs to succeed. -/
def Utf8Paths (s : SyncState) : Prop :=
  ∀ p : PathBuf, s.tree[p]? ≠ none → p.toStr? ≠ none

theorem mapM_isOk {α β ε : Type*} {f : α → Except ε β} {xs : List α}
    (h : ∀ x ∈ xs, ∃ y, f x = .ok y) : ∃ ys, xs.mapM f = .ok ys := by
  induction xs with
  | nil => exact ⟨[], rfl⟩
  | cons x xs ih =>
    obtain ⟨y, hy⟩ := h x List.mem_cons_self
    obtain ⟨ys, hys⟩ := ih fun x hx => h x (List.mem_cons_of_mem _ hx)
    exact ⟨y :: ys, mapM_eq_ok_iff.mpr (.cons hy (mapM_eq_ok_iff.mp hys))⟩

/-- States with UTF-8 paths have a plan. -/
theorem planFor_isOk {saved client server : SyncState} (hl : Utf8Paths saved)
    (hc : Utf8Paths client) (hs : Utf8Paths server) :
    ∃ plan, planFor saved client server = .ok plan := by
  have hknown : ∀ p, diffAt p client.tree[p]? saved.tree[p]? ≠ none → p.toStr? ≠ none := by
    intro p hd
    by_cases hn : client.tree[p]? = none
    · refine hl p fun hb => hd ?_
      rw [hn, hb]
      rfl
    · exact hc p hn
  obtain ⟨statusList, hlist⟩ : ∃ statusList,
      (compareStates saved client).mapM FileStatus.tryFrom = .ok statusList := by
    refine mapM_isOk fun d hd => ?_
    obtain ⟨p, -, hd'⟩ := mem_compareStates.mp hd
    obtain ⟨path, hpath⟩ := Option.ne_none_iff_exists'.mp (hknown p (by simp [hd']))
    unfold FileStatus.tryFrom
    rw [path_of_diffAt hd', hpath]
    exact ⟨_, rfl⟩
  obtain ⟨plan, hplan⟩ : ∃ plan, generateSyncPlan server statusList = .ok plan := by
    refine mapM_isOk fun p hp => ?_
    have hstr : p.toStr? ≠ none := by
      rw [mem_sortedKeys, List.mem_append, mem_keys_iff, mem_keys_iff,
        getElem?_remoteTree hlist] at hp
      rcases hp with hp | hp
      · exact hs p hp
      · refine hknown p fun hnone => hp ?_
        simp [listed, hnone]
    obtain ⟨path, hpath⟩ := Option.ne_none_iff_exists'.mp hstr
    unfold actionAt
    rw [hpath]
    exact ⟨_, rfl⟩
  refine ⟨plan, ?_⟩
  unfold planFor
  rw [hlist]
  exact hplan

/-- At one path that no deletion is involved in: the two sides agree after the
transfer exactly if nothing was left out there. -/
theorem settle_agrees_iff {saved client server : SyncState} {p : PathBuf}
    (hp : hasHiddenComponents p = false)
    (hkept : saved.tree[p]? ≠ none → client.tree[p]? ≠ none)
    (hties : ∀ c s, client.tree[p]? = some c → server.tree[p]? = some s → c.hash ≠ s.hash →
      c.modifiedTs ≠ s.modifiedTs) :
    ((settle (newer server.tree[p]? (reported saved client p))
        (client.contents p) (server.contents p)).1 =
      (settle (newer server.tree[p]? (reported saved client p))
        (client.contents p) (server.contents p)).2) ↔
    ∀ c l, client.tree[p]? = some c → saved.tree[p]? = some l →
      (l.hash = c.hash → server.tree[p]? ≠ none) ∧
      (l.hash ≠ c.hash → protoTimestampGt c.modifiedTs l.modifiedTs = false →
        ∀ s, server.tree[p]? = some s → c.hash ≠ s.hash →
          l.hash ≠ s.hash ∧ l.modifiedTs ≠ s.modifiedTs) := by
  have hsame : ∀ (d : TransferDirection) (x : Digest),
      (settle d (some x) (some x)).1 = (settle d (some x) (some x)).2 := by
    rintro (- | - | -) x <;> rfl
  -- a file listed with metadata `m` settles unless it is skipped
  have hsettle : ∀ (d : TransferDirection) (x y : Digest), x ≠ y →
      ((settle d (some x) (some y)).1 = (settle d (some x) (some y)).2 ↔ d ≠ .skip) := by
    rintro (- | - | -) x y hxy <;> simp [settle, hxy]
  have hskip : ∀ s m : FileMetadata, newer (some s) (some m) ≠ .skip ↔
      m.hash ≠ s.hash ∧ m.modifiedTs ≠ s.modifiedTs := by
    intro s m
    by_cases hh : m.hash = s.hash
    · simp [newer, hh]
    · by_cases ht : m.modifiedTs = s.modifiedTs
      · have hgt : protoTimestampGt s.modifiedTs s.modifiedTs = false := by
          simp [protoTimestampGt]
        simp [newer, hh, ht, hgt]
      · simp only [newer, hh, if_false, ne_eq, not_false_eq_true, ht, and_self, iff_true]
        rcases h₁ : protoTimestampGt s.modifiedTs m.modifiedTs with - | -
        · rcases h₂ : protoTimestampGt m.modifiedTs s.modifiedTs with - | -
          · exact absurd (protoTimestampGt_total h₂ h₁) ht
          · simp
        · simp
  rcases hc : client.tree[p]? with - | c
  · -- not on the client, so never synced
    have hl : saved.tree[p]? = none := by
      by_contra hl
      exact hkept hl hc
    rw [reported_removed hp hc, hl]
    rcases hs : server.tree[p]? with - | s <;>
      simp [newer, settle, SyncState.contents, hc, hs]
  · rcases hs : server.tree[p]? with - | s
    · rcases hl : saved.tree[p]? with - | l
      · rw [reported_added hp hc hl]
        simp [newer, settle, SyncState.contents, hc, hs]
      · by_cases hlc : l.hash = c.hash
        · rw [reported_unchanged hc hl hlc]
          simp [newer, settle, SyncState.contents, hc, hs, hlc]
        · rw [reported_modified hp hc hl hlc]
          simp [newer, settle, SyncState.contents, hc, hs, hlc]
    · have hcont : client.contents p = some c.hash ∧ server.contents p = some s.hash := by
        simp [SyncState.contents, hc, hs]
      rw [hcont.1, hcont.2]
      by_cases hcs : c.hash = s.hash
      · rw [hcs]
        refine iff_of_true (hsame _ _) fun c' l hc' _ =>
          ⟨fun _ => by simp, fun _ _ s' hs' hne => ?_⟩
        obtain rfl := Option.some.inj hc'
        obtain rfl := Option.some.inj hs'
        exact absurd hcs hne
      · have hts := hties c s hc hs hcs
        rw [hsettle _ _ _ hcs]
        rcases hl : saved.tree[p]? with - | l
        · rw [reported_added hp hc hl, hskip]
          simp [hcs, hts]
        · by_cases hlc : l.hash = c.hash
          · rw [reported_unchanged hc hl hlc]
            simp [newer, hlc]
          · rw [reported_modified hp hc hl hlc, hskip]
            rcases hgt : protoTimestampGt c.modifiedTs l.modifiedTs with - | -
            · simp [hlc, hgt, hcs]
            · simp [hlc, hgt, hcs, hts]

/-- **Convergence.**  With every file of the saved state still on the client
and no tie between different versions, there is a plan, and carrying it out
makes the two sides equal exactly where nothing is left out of the list. -/
theorem converges_iff {saved client server : SyncState} (hl : Utf8Paths saved)
    (hc : Utf8Paths client) (hs : Utf8Paths server)
    (hvisible : ∀ p, client.tree[p]? ≠ none ∨ server.tree[p]? ≠ none →
      hasHiddenComponents p = false)
    (hkept : ∀ p : PathBuf, saved.tree[p]? ≠ none → client.tree[p]? ≠ none)
    (hties : ∀ (p : PathBuf) (c s : FileMetadata), client.tree[p]? = some c →
      server.tree[p]? = some s → c.hash ≠ s.hash → c.modifiedTs ≠ s.modifiedTs) :
    ∃ plan, planFor saved client server = .ok plan ∧
      (Converges client server plan ↔ NothingLeftOut saved client server) := by
  obtain ⟨plan, hplan⟩ := planFor_isOk hl hc hs
  refine ⟨plan, hplan, ?_⟩
  have hpath : ∀ p, (plan.foldl Replicas.carryOut ⟨client.contents, server.contents⟩).client p =
      (plan.foldl Replicas.carryOut ⟨client.contents, server.contents⟩).server p ↔
      (settle (newer server.tree[p]? (reported saved client p))
        (client.contents p) (server.contents p)).1 =
      (settle (newer server.tree[p]? (reported saved client p))
        (client.contents p) (server.contents p)).2 := by
    intro p
    rw [← foldl_carryOut hplan ⟨client.contents, server.contents⟩ p]
  -- a path on neither side stays there, whatever its name
  have hnowhere : ∀ p : PathBuf, client.tree[p]? = none → server.tree[p]? = none →
      (settle (newer server.tree[p]? (reported saved client p))
        (client.contents p) (server.contents p)).1 =
      (settle (newer server.tree[p]? (reported saved client p))
        (client.contents p) (server.contents p)).2 := by
    intro p hcn hsn
    simp only [SyncState.contents, hcn, hsn, Option.map_none]
    generalize newer none (reported saved client p) = d
    rcases d with - | - | - <;> rfl
  unfold Converges
  rw [funext_iff]
  constructor
  · intro h p c l hc' hl'
    have hp := hvisible p (.inl (by simp [hc']))
    exact (settle_agrees_iff hp (hkept p) (hties p)).mp ((hpath p).mp (h p)) c l hc' hl'
  · intro h p
    by_cases hsome : client.tree[p]? ≠ none ∨ server.tree[p]? ≠ none
    · exact (hpath p).mpr ((settle_agrees_iff (hvisible p hsome) (hkept p) (hties p)).mpr (h p))
    · obtain ⟨hcn, hsn⟩ := not_or.mp hsome
      exact (hpath p).mpr (hnowhere p (not_not.mp hcn) (not_not.mp hsn))

theorem utf8Paths_iff {s : SyncState} :
    Utf8Paths s ↔ ∀ p ∈ s.tree.keys, p.toStr? ≠ none := by
  simp only [Utf8Paths, mem_keys_iff]

/-- A file edited on the client, one that the server has in an older version, and
a new one on either side. -/
theorem converges_edited :
    let saved := sampleState [("a", 1, 10), ("c", 3, 10)]
    let client := sampleState [("a", 2, 20), ("b", 5, 15), ("c", 3, 10)]
    let server := sampleState [("a", 1, 10), ("c", 4, 5), ("d", 6, 12)]
    ∃ plan, planFor saved client server = .ok plan ∧
      (Converges client server plan ↔ NothingLeftOut saved client server) := by
  intro saved client server
  have hvisible : ∀ q ∈ client.tree.keys ++ server.tree.keys, hasHiddenComponents q = false := by
    decide
  have hkept : ∀ q ∈ saved.tree.keys, client.tree[q]? ≠ none := by decide
  have hties : ∀ q ∈ client.tree.keys, ∀ c ∈ client.tree[q]?, ∀ s ∈ server.tree[q]?,
      c.hash ≠ s.hash → c.modifiedTs ≠ s.modifiedTs := by
    decide
  refine converges_iff (utf8Paths_iff.mpr (by decide)) (utf8Paths_iff.mpr (by decide))
    (utf8Paths_iff.mpr (by decide)) (fun p hp => hvisible p ?_)
    (fun p hp => hkept p (mem_keys_iff.mpr hp)) (fun p c s hc hs => ?_)
  · exact List.mem_append.mpr (hp.imp mem_keys_iff.mpr mem_keys_iff.mpr)
  · exact hties p (mem_keys_iff.mpr (by simp [hc])) c hc s hs

/-- A file that has not changed since the last sync but is missing on the
server stays missing there. -/
theorem unchanged_file_left_out :
    planFor (sampleState [("a", 1, 10)]) (sampleState [("a", 1, 10)]) (sampleState []) = .ok [] ∧
      ¬ Converges (sampleState [("a", 1, 10)]) (sampleState []) [] := by
  refine ⟨by decide, fun h => ?_⟩
  have hpath := congrFun h (.ofString "a")
  exact absurd hpath (by decide)

/-! ### Deletions -/

/-- Every upload is for a file that the client has. -/
def UploadsPresent (client : SyncState) (plan : List FileAction) : Prop :=
  ∀ a ∈ plan, a.direction = TransferDirection.upload.toI32 →
    client.tree[PathBuf.ofString a.path]? ≠ none

/-- **Deletions** do not turn into uploads exactly where the server still has
each deleted file, with the content of the last sync or a time not earlier than
that of the last sync. -/
theorem uploadsPresent_iff {saved client server : SyncState} {plan : List FileAction}
    (h : planFor saved client server = .ok plan) :
    UploadsPresent client plan ↔
      ∀ (p : PathBuf) (l : FileMetadata), saved.tree[p]? = some l → client.tree[p]? = none →
        hasHiddenComponents p = false → ∃ s, server.tree[p]? = some s ∧
          (l.hash = s.hash ∨ protoTimestampGt l.modifiedTs s.modifiedTs = false) := by
  obtain ⟨hdir, -, hmem⟩ := planFor_spec h
  -- the direction for a deleted file
  have hdel : ∀ (p : PathBuf) (l : FileMetadata), saved.tree[p]? = some l →
      client.tree[p]? = none → hasHiddenComponents p = false →
      (newer server.tree[p]? (reported saved client p) ≠ .upload ↔
        ∃ s, server.tree[p]? = some s ∧
          (l.hash = s.hash ∨ protoTimestampGt l.modifiedTs s.modifiedTs = false)) := by
    intro p l hl hc hp
    rw [reported_removed hp hc, hl]
    rcases hs : server.tree[p]? with - | s
    · simp [newer]
    · by_cases hh : l.hash = s.hash
      · simp [newer, hh]
      · simp only [ne_eq, (newer_some hh).2, Option.some.injEq, exists_eq_left', hh, false_or,
          Bool.not_eq_true]
  constructor
  · intro hup p l hl hc hp
    refine (hdel p l hl hc hp).mp fun hd => ?_
    have hrep : reported saved client p ≠ none := by
      rw [reported_removed hp hc, hl]
      simp
    obtain ⟨a, ha, rfl⟩ := List.mem_map.mp ((hmem p).mpr (.inr hrep))
    exact hup a ha (by rw [hdir a ha, hd]) hc
  · intro hcond a ha hd hc
    rw [hdir a ha, TransferDirection.toI32_injective.eq_iff] at hd
    -- an upload needs a report, and the report of an absent file is its old entry
    have hrep : reported saved client (PathBuf.ofString a.path) ≠ none := by
      intro hnone
      rw [hnone] at hd
      rcases hs : server.tree[PathBuf.ofString a.path]? with - | s <;> simp [newer, hs] at hd
    rcases hp : hasHiddenComponents (PathBuf.ofString a.path) with - | -
    · rcases hl : saved.tree[PathBuf.ofString a.path]? with - | l
      · rw [reported_removed hp hc, hl] at hrep
        exact hrep rfl
      · exact (hdel _ l hl hc hp).mpr (hcond _ l hl hc hp) hd
    · exact hrep (reported_hidden hp)

/-- A file that the server has as it was when the client deleted it is skipped. -/
theorem uploadsPresent_skip :
    UploadsPresent (sampleState []) [⟨"a", TransferDirection.skip.toI32, some default⟩] ↔
      ∀ (p : PathBuf) (l : FileMetadata), (sampleState [("a", 1, 10)]).tree[p]? = some l →
        (sampleState []).tree[p]? = none → hasHiddenComponents p = false →
        ∃ s, (sampleState [("a", 1, 10)]).tree[p]? = some s ∧
          (l.hash = s.hash ∨ protoTimestampGt l.modifiedTs s.modifiedTs = false) :=
  uploadsPresent_iff (by decide)

/-- A file that the client deleted and the server does not have is requested
from the client. -/
theorem deleted_file_requested :
    planFor (sampleState [("a", 1, 10)]) (sampleState []) (sampleState []) =
        .ok [⟨"a", TransferDirection.upload.toI32, some ⟨10, 0⟩⟩] ∧
      ¬ UploadsPresent (sampleState [])
        [⟨"a", TransferDirection.upload.toI32, some ⟨10, 0⟩⟩] := by
  refine ⟨by decide, fun h => ?_⟩
  exact h _ (List.mem_singleton_self _) rfl (by decide)

end Harmonic
