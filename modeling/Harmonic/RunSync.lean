/-
Harmonic/RunSync.lean

`run_sync`: one pass of the client over its tree.

The connection, the tree, the server's answer, how each file's transfer ends and
the write to the state file are the arguments of `runSync`.  Errors of transfers
are logged by the tasks that run them and go no further, so a run that gets a
plan comes to `save_state` exactly if every transfer of the plan returns; one
that does not is waited for, and nothing is saved.
-/
import Harmonic.State

namespace Harmonic

/-- What a run meets. -/
structure SyncRun where
  /-- the build checks for overflow -/
  overflowChecks : Bool
  /-- the state file before the run -/
  stateFile : StateFile
  /-- `generate_state` -/
  nowState : Except HarmonicError SyncState
  /-- the server's answer to a list of changes -/
  syncPlan : List FileStatus → Except HarmonicError (List FileAction)
  /-- `sync_file` of each action of the plan, if it returns -/
  syncFile : ℕ → Option TaskResult
  /-- `fs::write` of the state file -/
  write : WriteOutcome

/-- The body of a task of `send_data_to_server` and its join, if it comes to an
end. -/
def joinTask : Option TaskResult → Option Unit
  | some .ok => some ()
  | some .err => some ()  -- "Failed to sync file" is logged
  | some .panic => some ()  -- "Task join error" is logged
  | none => none

/-- `send_data_to_server`, if it returns. -/
def sendDataToServer (syncFile : ℕ → Option TaskResult) (fileActions : List FileAction) :
    Option (Except HarmonicError Unit) := do
  (List.range fileActions.length).forM fun k => joinTask (syncFile k)
  some (.ok ())

/-- `run_sync`: the state file after the run, or while it waits, and the
result. -/
def runSync (r : SyncRun) : StateFile × Option (Except Halt Unit) :=
  match loadState r.stateFile, r.nowState with
  | .error e, _ => (r.stateFile, some (.error (.err e)))
  | .ok _, .error e => (r.stateFile, some (.error (.err e)))
  | .ok lastState, .ok nowState =>
    match (compareStates lastState nowState).mapM FileStatus.tryFrom with
    | .error e => (r.stateFile, some (.error (.err e)))
    | .ok statusList =>
      match r.syncPlan statusList with
      | .error e => (r.stateFile, some (.error (.err e)))
      | .ok filesToSend =>
        match sendDataToServer r.syncFile filesToSend with
        | none => (r.stateFile, none)
        | some _ =>  -- "Completed Sync" or "Sync failed due to" is logged
          let (stateFile, result) := saveState r.overflowChecks nowState r.stateFile r.write
          (stateFile, some result)

/-! ### What is saved -/

variable {overflowChecks : Bool}

/-- The time that is read for a saved one. -/
def reloadTime (overflowChecks : Bool) (ts : Timestamp) : Timestamp :=
  match ts.toMicros overflowChecks with
  | .ok micros => .deserialize micros.toInt
  | .error _ => ts

theorem entryOfJson_of_toJson {path : PathBuf} {m : FileMetadata} {e : String × Digest × Int64}
    (h : entryToJson overflowChecks path m = .ok e) :
    entryOfJson e = (path, ⟨m.hash, reloadTime overflowChecks m.modifiedTs⟩) := by
  unfold entryToJson at h
  split at h
  · cases h
  · rename_i s hs
    obtain ⟨micros, hmicros, he⟩ := bind_eq_ok.mp h
    obtain rfl := Except.ok.inj he
    rw [entryOfJson, ofString_of_toStr? hs, reloadTime, hmicros]

theorem map_entryOfJson {xs : List (PathBuf × FileMetadata)}
    {ys : List (String × Digest × Int64)}
    (h : List.Forall₂ (fun x y => entryToJson overflowChecks x.1 x.2 = .ok y) xs ys) :
    ys.map entryOfJson = xs.map fun e =>
      (e.1, ⟨e.2.hash, reloadTime overflowChecks e.2.modifiedTs⟩) := by
  induction h with
  | nil => rfl
  | cons hxy _ ih => rw [List.map_cons, List.map_cons, ih, entryOfJson_of_toJson hxy]

/-- Loading a saved state gives back its hashes. -/
theorem getElem?_toState {state : SyncState} {document : StateJson}
    (h : state.toJson overflowChecks = .ok document) (p : PathBuf) :
    document.toState.tree[p]? = state.tree[p]?.map fun m =>
      ⟨m.hash, reloadTime overflowChecks m.modifiedTs⟩ := by
  obtain ⟨entries, hentries, hdoc⟩ := bind_eq_ok.mp h
  obtain rfl := Except.ok.inj hdoc
  -- the entries, read back, are those of the tree
  have hlist : entries.map entryOfJson = state.tree.toList.map fun e =>
      (e.1, ⟨e.2.hash, reloadTime overflowChecks e.2.modifiedTs⟩) :=
    map_entryOfJson (mapM_eq_ok_iff.mp hentries)
  classical
  let _ : BEq PathBuf := instBEqOfDecidableEq
  rw [StateJson.toState, hlist]
  rcases hp : state.tree[p]? with - | m
  · refine Std.TreeMap.getElem?_ofList_of_contains_eq_false ?_
    simp only [List.map_map, List.contains_eq_mem, List.mem_map, decide_eq_false_iff_not]
    rintro ⟨⟨q, m⟩, hq, rfl⟩
    have hq' := Std.TreeMap.mem_toList_iff_getElem?_eq_some.mp hq
    cases hp.symm.trans hq'
  · refine Std.TreeMap.getElem?_ofList_of_mem (k := p) (SortedKeys.compare_eq_iff.mpr rfl) ?_ ?_
    · exact List.pairwise_map.mpr Std.TreeMap.distinct_keys_toList
    · exact List.mem_map.mpr
        ⟨(p, m), Std.TreeMap.mem_toList_iff_getElem?_eq_some.mpr hp, rfl⟩

/-- Against the saved tree itself nothing is listed. -/
theorem compareStates_saved {state next : SyncState} {document : StateJson}
    (h : state.toJson overflowChecks = .ok document) (hnext : next.tree = state.tree) :
    compareStates document.toState next = [] := by
  refine List.eq_nil_iff_forall_not_mem.mpr fun d hd => ?_
  obtain ⟨p, -, hdiff⟩ := mem_compareStates.mp hd
  rw [hnext, getElem?_toState h] at hdiff
  rcases hp : state.tree[p]? with - | m
  · rw [hp] at hdiff
    cases hdiff
  · rw [hp] at hdiff
    simp [diffAt] at hdiff

/-! ### What is waited for -/

theorem forM_eq_some_iff {α : Type*} {f : α → Option Unit} {xs : List α} :
    xs.forM f = some () ↔ ∀ x ∈ xs, f x = some () := by
  induction xs with
  | nil => simp [pure]
  | cons x xs ih =>
    show (f x >>= fun _ => xs.forM f) = some () ↔ _
    rw [List.forall_mem_cons, ← ih]
    rcases f x with - | - <;> simp

theorem joinTask_eq_some_iff {result : Option TaskResult} :
    joinTask result = some () ↔ result ≠ none := by
  rcases result with - | - | - | - <;> simp [joinTask]

/-- The loop returns exactly if every transfer does. -/
theorem sendDataToServer_eq_some_iff {syncFile : ℕ → Option TaskResult}
    {fileActions : List FileAction} :
    sendDataToServer syncFile fileActions = some (.ok ()) ↔
      ∀ k < fileActions.length, syncFile k ≠ none := by
  have hjoin : (List.range fileActions.length).forM (fun k => joinTask (syncFile k)) = some () ↔
      ∀ k < fileActions.length, syncFile k ≠ none := by
    simp only [forM_eq_some_iff, List.mem_range, joinTask_eq_some_iff]
  rw [← hjoin, sendDataToServer]
  rcases (List.range fileActions.length).forM fun k => joinTask (syncFile k) with - | - <;> simp

/-- Or else it is waited for. -/
theorem sendDataToServer_eq_none_iff {syncFile : ℕ → Option TaskResult}
    {fileActions : List FileAction} :
    sendDataToServer syncFile fileActions = none ↔
      ∃ k < fileActions.length, syncFile k = none := by
  rw [← not_iff_not]
  refine Iff.trans ?_ (sendDataToServer_eq_some_iff.trans (by push Not; rfl))
  rw [sendDataToServer]
  rcases (List.range fileActions.length).forM fun k => joinTask (syncFile k) with - | - <;> simp

/-! ### Two runs -/

/-- The paths that a run lists as changed. -/
def listedPaths (lastState nowState : SyncState) : List PathBuf :=
  (compareStates lastState nowState).map Diff.path

/-- A path of the plan whose transfer does not succeed. -/
def TransferFailed (r : SyncRun) (plan : List FileAction) (p : PathBuf) : Prop :=
  ∃ k a, plan[k]? = some a ∧ PathBuf.ofString a.path = p ∧ r.syncFile k ≠ some .ok

/-- The next run, over the same tree, gets past `load_state` and lists each
change whose transfer failed. -/
def FailuresListedAgain (r : SyncRun) (lastState nowState : SyncState)
    (plan : List FileAction) : Prop :=
  ∀ p ∈ listedPaths lastState nowState, TransferFailed r plan p →
    ∃ last, loadState (runSync r).1 = .ok last ∧
      ∀ next : SyncState, next.tree = nowState.tree → p ∈ listedPaths last next

/-- The state file keeps what it had before the run: a transfer is waited for, or
the new state is not serialised, or the file is not opened. -/
def StateKept (r : SyncRun) (nowState : SyncState) (plan : List FileAction) : Prop :=
  (∃ k < plan.length, r.syncFile k = none) ∨
    (∃ e, nowState.toJson r.overflowChecks = .error e) ∨ r.write = .notOpened

/-- What a run that gets a plan leaves: the old state file, the new state, or a
file that does not parse. -/
theorem stateFile_runSync {r : SyncRun} {lastState nowState : SyncState}
    {statusList : List FileStatus} {plan : List FileAction}
    (hlast : loadState r.stateFile = .ok lastState) (hnow : r.nowState = .ok nowState)
    (hlist : (compareStates lastState nowState).mapM FileStatus.tryFrom = .ok statusList)
    (hplan : r.syncPlan statusList = .ok plan) :
    StateKept r nowState plan ∧ (runSync r).1 = r.stateFile ∨
      ¬ StateKept r nowState plan ∧ ((∃ document,
        nowState.toJson r.overflowChecks = .ok document ∧ (runSync r).1 = .json document) ∨
        (runSync r).1 = .corrupt) := by
  have hrun : (runSync r).1 = match sendDataToServer r.syncFile plan with
      | none => r.stateFile
      | some _ => (saveState r.overflowChecks nowState r.stateFile r.write).1 := by
    simp only [runSync, hlast, hnow, hlist, hplan]
    rcases sendDataToServer r.syncFile plan with - | - <;> rfl
  rw [hrun]
  rcases hsend : sendDataToServer r.syncFile plan with - | result
  · exact .inl ⟨.inl (sendDataToServer_eq_none_iff.mp hsend), rfl⟩
  have hreturns : ¬ ∃ k < plan.length, r.syncFile k = none := by
    rw [← sendDataToServer_eq_none_iff, hsend]
    exact nofun
  rcases hjson : nowState.toJson r.overflowChecks with e | document
  · exact .inl ⟨.inr (.inl ⟨e, hjson⟩), by simp only [saveState, hjson]⟩
  have hserialised : ¬ ∃ e, nowState.toJson r.overflowChecks = .error e := by simp [hjson]
  -- the outcome of the write
  rcases hw : r.write with - | - | -
  · refine .inr ⟨?_, .inl ⟨document, rfl, by simp only [saveState, hjson]⟩⟩
    rintro (h | h | h)
    · exact hreturns h
    · exact hserialised h
    · cases hw.symm.trans h
  · exact .inl ⟨.inr (.inr hw), by simp only [saveState, hjson]⟩
  · refine .inr ⟨?_, .inr (by simp only [saveState, hjson])⟩
    rintro (h | h | h)
    · exact hreturns h
    · exact hserialised h
    · cases hw.symm.trans h

/-- **No change is forgotten** exactly where the state file keeps what it had or
no transfer of a listed change failed. -/
theorem failuresListedAgain_iff {r : SyncRun} {lastState nowState : SyncState}
    {statusList : List FileStatus} {plan : List FileAction}
    (hlast : loadState r.stateFile = .ok lastState) (hnow : r.nowState = .ok nowState)
    (hlist : (compareStates lastState nowState).mapM FileStatus.tryFrom = .ok statusList)
    (hplan : r.syncPlan statusList = .ok plan) :
    FailuresListedAgain r lastState nowState plan ↔
      StateKept r nowState plan ∨
        ∀ p ∈ listedPaths lastState nowState, ¬ TransferFailed r plan p := by
  unfold FailuresListedAgain
  rcases stateFile_runSync hlast hnow hlist hplan with ⟨hkept, hfile⟩ | ⟨hlost, hfile⟩
  · -- the next run compares with the same state
    refine iff_of_true (fun p hp _ => ⟨lastState, hfile ▸ hlast, fun next hnext => ?_⟩) (.inl hkept)
    simpa only [listedPaths, compareStates, hnext] using hp
  · rw [or_iff_right hlost]
    refine forall₂_congr fun p hp => imp_congr_right fun hfail => iff_of_false ?_ id
    rintro ⟨last, hload, hnext⟩
    rcases hfile with ⟨document, hjson, hfile⟩ | hfile
    · -- nothing is listed any more
      rw [hfile] at hload
      obtain rfl := Except.ok.inj hload
      have hp' := hnext nowState rfl
      rw [listedPaths, compareStates_saved hjson rfl] at hp'
      cases hp'
    · rw [hfile] at hload
      cases hload

/-- A new file on the client, an empty server, and a write that succeeds. -/
def sampleRun (result : TaskResult) : SyncRun where
  overflowChecks := true
  stateFile := .missing
  nowState := .ok (sampleState [("a", 1, 10)])
  syncPlan := generateSyncPlan (sampleState [])
  syncFile := fun _ => some result
  write := .written

/-- The plan of that run. -/
def samplePlan : List FileAction := [⟨"a", TransferDirection.upload.toI32, some ⟨10, 0⟩⟩]

/-- Where the upload succeeds, and where it is waited for. -/
theorem failuresListedAgain_ok :
    FailuresListedAgain (sampleRun .ok) ⟨0, ∅⟩ (sampleState [("a", 1, 10)]) samplePlan ∧
      FailuresListedAgain { sampleRun .ok with syncFile := fun _ => none } ⟨0, ∅⟩
        (sampleState [("a", 1, 10)]) samplePlan := by
  have hlist : (compareStates ⟨0, ∅⟩ (sampleState [("a", 1, 10)])).mapM FileStatus.tryFrom =
      .ok [⟨"a", some ⟨10, 0⟩, 0, List.replicate 32 1⟩] := by decide
  refine ⟨(failuresListedAgain_iff rfl rfl hlist (by decide)).mpr (.inr ?_),
    (failuresListedAgain_iff rfl rfl hlist (by decide)).mpr (.inl (.inl ⟨0, by decide, rfl⟩))⟩
  rintro p - ⟨k, a, -, -, hfail⟩
  exact hfail rfl

/-- Where the upload fails, the state is saved all the same, and the next run
does not list the file. -/
theorem failed_upload_forgotten :
    (compareStates ⟨0, ∅⟩ (sampleState [("a", 1, 10)])).mapM FileStatus.tryFrom =
        .ok [⟨"a", some ⟨10, 0⟩, 0, List.replicate 32 1⟩] ∧
      (sampleRun .err).syncPlan [⟨"a", some ⟨10, 0⟩, 0, List.replicate 32 1⟩] = .ok samplePlan ∧
      ¬ FailuresListedAgain (sampleRun .err) ⟨0, ∅⟩ (sampleState [("a", 1, 10)]) samplePlan := by
  refine ⟨by decide, by decide, fun h => ?_⟩
  -- what the state file holds after the run
  have hsaved : (runSync (sampleRun .err)).1 =
      .json ⟨0, [("a", Vector.replicate 32 1, 10000000)]⟩ := by decide
  obtain ⟨last, hload, hnext⟩ := h (.ofString "a") (by decide)
    ⟨0, _, rfl, rfl, by decide⟩
  rw [hsaved] at hload
  obtain rfl := Except.ok.inj hload
  exact absurd (hnext (sampleState [("a", 1, 10)]) rfl) (by decide)

end Harmonic
