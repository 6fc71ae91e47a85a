/-
Harmonic/State.lean

Trees of file metadata, their differences, the plan, and the state file.

`compareStates` and `generateSyncPlan` walk the union of the keys of two maps
in path order.  What each does at one path is a function of the two entries at
that path (`diffAt`, `transferFor`), and that is how they are used later.
-/
import Harmonic.Lib.SortedKeys
import Harmonic.Proto

namespace Harmonic

open Storage (Failure)
open SortedKeys

structure FileMetadata where
  hash : Digest
  modifiedTs : Timestamp
  deriving DecidableEq

/-- A file tree: relative paths with the metadata of the files there. -/
abbrev Tree := Std.TreeMap PathBuf FileMetadata compare

structure SyncState where
  lastSyncTimestampMicros : Int64
  tree : Tree

inductive ChangeType
  | added
  | removed
  | modified
  deriving DecidableEq

structure Diff where
  path : PathBuf
  change : ChangeType
  hash : Digest
  modifiedTs : Timestamp
  deriving DecidableEq

/-- `TryFrom<Diff> for FileStatus`. -/
def FileStatus.tryFrom (diff : Diff) : Except HarmonicError FileStatus :=
  match diff.path.toStr? with
  | none => .error .stringInvalid
  | some path => .ok ⟨path, some diff.modifiedTs, FileType.other.toI32, diff.hash.toBytes⟩

/-- `proto_timestamp_gt`. -/
def protoTimestampGt (a b : Timestamp) : Bool :=
  a.seconds > b.seconds || a.seconds == b.seconds && a.nanos > b.nanos

/-! ### Differences -/

/-- The diff that `compare_states` pushes for a path with these entries. -/
def diffAt (path : PathBuf) (now before : Option FileMetadata) : Option Diff :=
  match now, before with
  | some now, some before =>
    if now.hash ≠ before.hash then
      let (hash, modifiedTs) :=
        if protoTimestampGt now.modifiedTs before.modifiedTs then (now.hash, now.modifiedTs)
        else (before.hash, before.modifiedTs)
      some ⟨path, .modified, hash, modifiedTs⟩
    else none
  | some now, none => some ⟨path, .added, now.hash, now.modifiedTs⟩
  | none, some before => some ⟨path, .removed, before.hash, before.modifiedTs⟩
  | none, none => none

/-- The paths `compare_states` looks at. -/
def visiblePaths (before now : Tree) : List PathBuf :=
  sortedKeys ((before.keys ++ now.keys).filter fun p => !hasHiddenComponents p)

/-- `compare_states`. -/
def compareStates (beforeState nowState : SyncState) : List Diff :=
  (visiblePaths beforeState.tree nowState.tree).filterMap fun path =>
    diffAt path nowState.tree[path]? beforeState.tree[path]?

/-! ### The plan -/

/-- The direction and timestamp that `generate_sync_plan` gives a path with
these entries.  A path has one of the two. -/
def transferFor (localFile : Option FileMetadata) (remoteFile : Option FileStatus) :
    TransferDirection × Timestamp :=
  match localFile, remoteFile with
  | some localFile, some remoteFile =>
    if remoteFile.hash ≠ localFile.hash.toBytes then
      let remoteFileTimestamp := remoteFile.timestamp.getD default
      if protoTimestampGt localFile.modifiedTs remoteFileTimestamp then
        (.download, localFile.modifiedTs)
      else if protoTimestampGt remoteFileTimestamp localFile.modifiedTs then
        (.upload, remoteFileTimestamp)
      else (.skip, localFile.modifiedTs)
    else (.skip, default)
  | some localFile, none => (.download, localFile.modifiedTs)
  | none, some remoteFile => (.upload, remoteFile.timestamp.getD default)
  | none, none => (.skip, default)

/-- The action for one path. -/
def actionAt (path : PathBuf) (transfer : TransferDirection × Timestamp) :
    Except HarmonicError FileAction :=
  match path.toStr? with
  | none => .error .stringInvalid
  | some pathStr => .ok ⟨pathStr, transfer.1.toI32, some transfer.2⟩

/-- `remote_tree`: the listed files by path, later ones over earlier ones. -/
def remoteTree (remoteFiles : List FileStatus) : Std.TreeMap PathBuf FileStatus compare :=
  Std.TreeMap.ofList (remoteFiles.map fun r => (PathBuf.ofString r.path, r)) compare

/-- `generate_sync_plan`. -/
def generateSyncPlan (stateNow : SyncState) (remoteFiles : List FileStatus) :
    Except HarmonicError (List FileAction) :=
  let remote := remoteTree remoteFiles
  (sortedKeys (stateNow.tree.keys ++ remote.keys)).mapM fun path =>
    actionAt path (transferFor stateNow.tree[path]? remote[path]?)

/-! ### The state file -/

/-- The values of an `i64`. -/
def InI64 (x : Int) : Prop := -2 ^ 63 ≤ x ∧ x < 2 ^ 63

instance (x : Int) : Decidable (InI64 x) := inferInstanceAs (Decidable (_ ∧ _))

/-- The result of an operation on `i64`, if it does not overflow. -/
def checkedI64 (x : Int) : Option Int := if InI64 x then some x else none

/-- `as i32`. -/
def asI32 (x : Int) : Int := x.bmod (2 ^ 32)

namespace Timestamp

/-- The microseconds of a time, as unbounded integers. -/
def serialize (ts : Timestamp) : Int :=
  ts.seconds * 1000000 + ts.nanos.tdiv 1000

/-- The time of some microseconds, as unbounded integers. -/
def deserialize (micros : Int) : Timestamp :=
  ⟨micros.tdiv 1000000, micros.tmod 1000000 * 1000⟩

/-- `timestamp_proto::serialize`. -/
def serializeI64 (ts : Timestamp) : Option Int := do
  let micros ← checkedI64 (ts.seconds * 1000000)
  checkedI64 (micros + ts.nanos.tdiv 1000)

/-- `timestamp_proto::deserialize`. -/
def deserializeI64 (micros : Int) : Option Timestamp := do
  let seconds ← checkedI64 (micros.tdiv 1000000)
  let nanos ← checkedI64 (micros.tmod 1000000 * 1000)
  some ⟨seconds, asI32 nanos⟩

/-- The saved value of a time.  An overflow is a panic in a build that checks for
it and wraps around in one that does not. -/
def toMicros (overflowChecks : Bool) (ts : Timestamp) : Except Halt Int64 :=
  match ts.serializeI64 with
  | some micros => .ok (.ofInt micros)
  | none => if overflowChecks then .error .panic else .ok (.ofInt ts.serialize)

end Timestamp

/-- The JSON document that stands for a state. -/
structure StateJson where
  lastSyncTimestampMicros : Int64
  tree : List (String × Digest × Int64)
  deriving DecidableEq

/-- What is found under the name of the state file; whatever does not parse is
`corrupt`. -/
inductive StateFile
  | missing
  | json (document : StateJson)
  | corrupt
  deriving DecidableEq

variable (overflowChecks : Bool)

/-- An entry of the map in JSON; a path that is not UTF-8 is refused. -/
def entryToJson (path : PathBuf) (metadata : FileMetadata) :
    Except Halt (String × Digest × Int64) :=
  match path.toStr? with
  | none => .error (.err .json)
  | some path => do
    let micros ← metadata.modifiedTs.toMicros overflowChecks
    .ok (path, metadata.hash, micros)

/-- `serde_json::to_string`. -/
def SyncState.toJson (state : SyncState) : Except Halt StateJson := do
  let tree ← state.tree.toList.mapM fun e => entryToJson overflowChecks e.1 e.2
  .ok ⟨state.lastSyncTimestampMicros, tree⟩

/-- The entry that stands in JSON for a path; no saved value overflows. -/
def entryOfJson (e : String × Digest × Int64) : PathBuf × FileMetadata :=
  (PathBuf.ofString e.1, ⟨e.2.1, .deserialize e.2.2.toInt⟩)

/-- `serde_json::from_str`. -/
def StateJson.toState (document : StateJson) : SyncState where
  lastSyncTimestampMicros := document.lastSyncTimestampMicros
  tree := Std.TreeMap.ofList (document.tree.map entryOfJson) compare

/-- How `fs::write` goes: all is written, the file cannot be opened, or writing
stops after the file was truncated. -/
inductive WriteOutcome
  | written
  | notOpened
  | torn
  deriving DecidableEq

/-- `save_state`: the state file afterwards, and the result. -/
def saveState (state : SyncState) (file : StateFile) (outcome : WriteOutcome) :
    StateFile × Except Halt Unit :=
  match state.toJson overflowChecks with
  | .error e => (file, .error e)
  | .ok document =>
    match outcome with
    | .written => (.json document, .ok ())
    | .notOpened => (file, .error (.err (.io .other)))
    | .torn => (.corrupt, .error (.err (.io .other)))

/-- `load_state`. -/
def loadState : StateFile → Except HarmonicError SyncState
  | .missing => .ok ⟨0, ∅⟩
  | .json document => .ok document.toState
  | .corrupt => .error .json

/-- A state with the given paths, contents and times. -/
def sampleState (files : List (String × UInt8 × Int)) : SyncState :=
  ⟨0, Std.TreeMap.ofList (files.map fun (path, byte, seconds) =>
    (PathBuf.ofString path, ⟨Vector.replicate 32 byte, ⟨seconds, 0⟩⟩)) compare⟩

/-! ### What the walks give -/

theorem mem_keys_iff {V : Type*} {t : Std.TreeMap PathBuf V compare} {p : PathBuf} :
    p ∈ t.keys ↔ t[p]? ≠ none := by
  rw [Std.TreeMap.mem_keys, Std.TreeMap.mem_iff_isSome_getElem?, Option.isSome_iff_ne_none]

/-- The diffs are those of the visible paths. -/
theorem mem_compareStates {before now : SyncState} {d : Diff} :
    d ∈ compareStates before now ↔ ∃ p, hasHiddenComponents p = false ∧
      diffAt p now.tree[p]? before.tree[p]? = some d := by
  simp only [compareStates, visiblePaths, List.mem_filterMap, mem_sortedKeys, List.mem_filter,
    List.mem_append, mem_keys_iff]
  constructor
  · rintro ⟨p, ⟨-, hp⟩, hd⟩
    exact ⟨p, by simpa using hp, hd⟩
  · rintro ⟨p, hp, hd⟩
    refine ⟨p, ⟨?_, by simpa using hp⟩, hd⟩
    by_contra hnone
    obtain ⟨hb, hn⟩ := not_or.mp hnone
    rw [not_not.mp hb, not_not.mp hn] at hd
    cases hd

theorem path_of_diffAt {p : PathBuf} {now before : Option FileMetadata} {d : Diff}
    (h : diffAt p now before = some d) : d.path = p := by
  rcases now with - | now <;> rcases before with - | before
  · cases h
  · obtain rfl := Option.some.inj h
    rfl
  · obtain rfl := Option.some.inj h
    rfl
  · unfold diffAt at h
    simp only at h
    split at h
    · obtain rfl := Option.some.inj h
      rfl
    · cases h

/-- A listed file as the walk of the trees sees it. -/
theorem tryFrom_eq_ok {d : Diff} {f : FileStatus} (h : FileStatus.tryFrom d = .ok f) :
    PathBuf.ofString f.path = d.path ∧ f.timestamp = some d.modifiedTs ∧
      f.hash = d.hash.toBytes := by
  unfold FileStatus.tryFrom at h
  split at h
  · cases h
  · rename_i s hs
    obtain rfl := Except.ok.inj h
    exact ⟨ofString_of_toStr? hs, rfl, rfl⟩

theorem actionAt_eq_ok {p : PathBuf} {t : TransferDirection × Timestamp} {a : FileAction}
    (h : actionAt p t = .ok a) : PathBuf.ofString a.path = p ∧ a.direction = t.1.toI32 ∧
      a.timestampLatestModified = some t.2 := by
  unfold actionAt at h
  split at h
  · cases h
  · rename_i s hs
    obtain rfl := Except.ok.inj h
    exact ⟨ofString_of_toStr? hs, rfl, rfl⟩

/-- A successful `mapM` has the value of each element, in order. -/
theorem mapM_eq_ok_iff {α β ε : Type*} {f : α → Except ε β} {xs : List α} {ys : List β} :
    xs.mapM f = .ok ys ↔ List.Forall₂ (fun x y => f x = .ok y) xs ys := by
  induction xs generalizing ys with
  | nil => cases ys <;> simp [pure, Except.pure]
  | cons x xs ih =>
    rw [List.mapM_cons]
    rcases hx : f x with e | y
    · constructor
      · intro h
        cases h
      · rintro (- | ⟨h, -⟩)
        cases hx.symm.trans h
    · -- the first element is fine: the rest decides
      rcases hxs : xs.mapM f with e | zs
      · constructor
        · intro h
          cases h
        · rintro (- | ⟨-, h⟩)
          cases hxs.symm.trans (ih.mpr h)
      · constructor
        · intro h
          obtain rfl := Except.ok.inj h
          exact .cons hx (ih.mp hxs)
        · rintro (- | ⟨h, h'⟩)
          obtain rfl := Except.ok.inj (hx.symm.trans h)
          obtain rfl := Except.ok.inj (hxs.symm.trans (ih.mpr h'))
          rfl

/-- Each element has its value in the result. -/
theorem exists_of_mem_of_mapM {α β ε : Type*} {f : α → Except ε β} {xs : List α} {ys : List β}
    {x : α} (h : xs.mapM f = .ok ys) (hx : x ∈ xs) : ∃ y ∈ ys, f x = .ok y := by
  obtain ⟨i, hi, rfl⟩ := List.mem_iff_getElem.mp hx
  have hall := mapM_eq_ok_iff.mp h
  have hi' : i < ys.length := hall.length_eq ▸ hi
  exact ⟨_, List.getElem_mem hi', hall.get hi hi'⟩

/-- Each value of the result is that of an element. -/
theorem exists_of_mem_mapM {α β ε : Type*} {f : α → Except ε β} {xs : List α} {ys : List β}
    {y : β} (h : xs.mapM f = .ok ys) (hy : y ∈ ys) : ∃ x ∈ xs, f x = .ok y := by
  obtain ⟨i, hi, rfl⟩ := List.mem_iff_getElem.mp hy
  have hall := mapM_eq_ok_iff.mp h
  have hi' : i < xs.length := hall.length_eq ▸ hi
  exact ⟨_, List.getElem_mem hi', hall.get hi' hi⟩

end Harmonic
