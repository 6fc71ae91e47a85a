/-
Harmonic/Handler.lean

`handle_sync_payload`: what one message makes a task do.

A call reads the file system once at most, before its first message, so it is
determined by what that read answers: it leaves a new `file_path`, a list of
effects to carry out in order (sending a message, passing a delta to the
writer, spawning a writer), and the result if all of them succeed.
-/
import Harmonic.Transfer

namespace Harmonic

open Storage (Failure)

/-- What a call does besides computing. -/
inductive Effect
  | send (m : SyncRequest)
  | forward (d : Delta)
  | spawn (path : PathBuf) (cache : BlockCache) (modifiedTs : Timestamp)
  deriving DecidableEq

/-- How a call ends: with a `SyncStatus`, with an error, by a panic, or not at
all. -/
inductive HandlerResult
  | continued
  | completed
  | err (e : HarmonicError)
  | panic
  | running
  deriving DecidableEq

/-- One call of the handler. -/
structure HandlerRun where
  filePath : PathBuf
  effects : List Effect
  result : HandlerResult
  deriving DecidableEq

/-- `?` on the result of a function that sends messages. -/
def Ending.result : Ending → HandlerResult
  | .ok => .continued
  | .err e => .err e
  | .panic => .panic
  | .running => .running

variable (D : Crates) (config : Config) (read : PathBuf → Except Failure Bytes)

/-- The branch for an upload: sign the file, send the signatures, then start
the writer. -/
def startUpload (filePath : PathBuf) (modifiedTs : Timestamp) : HandlerRun :=
  match generateBlocksSignatures D config read filePath with
  | .error (.err e) => ⟨filePath, [], .err (.sendError e)⟩
  | .error .panic => ⟨filePath, [], .panic⟩
  | .ok (signatures, cache) =>
    let reply := Effect.send (Payload.signatures signatures).request
    match getAbsolutePath D filePath config.syncPath with
    | .error e => ⟨filePath, [reply], .err e⟩
    | .ok absPath => ⟨filePath, [reply, .spawn absPath cache modifiedTs], .continued⟩

/-- `handle_sync_payload`; `hasWriter` says whether `writer_tx` holds a sender. -/
def handleSyncPayload (filePath : PathBuf) (hasWriter : Bool) : Payload → HandlerRun
  | .fileAction action =>
    if action.direction = TransferDirection.download.toI32 then
      ⟨.ofString action.path, [], .continued⟩
    else if action.direction = TransferDirection.upload.toI32 then
      startUpload D config read (.ofString action.path)
        (action.timestampLatestModified.getD default)
    else ⟨filePath, [], .continued⟩
  | .signatures signatures =>
    match getAbsolutePath D filePath config.syncPath with
    | .error e => ⟨filePath, [], .err e⟩
    | .ok absPath =>
      let sending := sendDelta D signatures (read absPath)
      ⟨filePath, sending.messages.map .send, sending.ending.result⟩
  | .delta delta => ⟨filePath, if hasWriter then [.forward delta] else [], .continued⟩
  | .complete _ => ⟨filePath, [.send completeRequest], .completed⟩

/-- The messages among effects. -/
def sendsOf (es : List Effect) : List SyncRequest :=
  es.filterMap fun e =>
    match e with
    | .send m => some m
    | _ => none

@[simp] theorem sendsOf_map_send (ms : List SyncRequest) : sendsOf (ms.map .send) = ms := by
  induction ms with
  | nil => rfl
  | cons m ms ih => exact congrArg (m :: ·) ih

/-! ### The branches of a call -/

variable {D config read} {filePath : PathBuf} {hasWriter : Bool}

/-- An action for an upload takes the upload branch. -/
theorem handleSyncPayload_upload {action : FileAction}
    (h : action.direction = TransferDirection.upload.toI32) :
    handleSyncPayload D config read filePath hasWriter (.fileAction action) =
      startUpload D config read (.ofString action.path)
        (action.timestampLatestModified.getD default) := by
  have hdown : ¬ action.direction = TransferDirection.download.toI32 := by
    rw [h]
    decide
  exact (if_neg hdown).trans (if_pos h)

/-- The handler sends no actions. -/
theorem fileAction_notMem_handle {payload : Payload} (action : FileAction) :
    Effect.send (Payload.fileAction action).request ∉
      (handleSyncPayload D config read filePath hasWriter payload).effects := by
  intro hmem
  rcases payload with action' | sigs | d | b <;> simp only [handleSyncPayload] at hmem
  · split at hmem
    · cases hmem
    · split at hmem
      · unfold startUpload at hmem
        split at hmem
        · cases hmem
        · cases hmem
        · split at hmem <;> simp [Payload.request] at hmem
      · cases hmem
  · split at hmem
    · cases hmem
    · rename_i abs _
      obtain ⟨m, hm, heq⟩ := List.mem_map.mp hmem
      obtain rfl := Effect.send.inj heq
      obtain ⟨ds, hds⟩ := sendDelta_messages D sigs (read abs)
      rw [hds] at hm
      rcases List.mem_append.mp hm with hm | hm
      · obtain ⟨d, -, hd⟩ := List.mem_map.mp hm
        simp [Delta.request, Payload.request] at hd
      · unfold Ending.closing at hm
        split at hm <;> simp [completeRequest, Payload.request] at hm
  · split at hmem <;> simp at hmem
  · simp [completeRequest, Payload.request] at hmem

/-- It starts a writer for an upload that it has signed, at the path of the
action. -/
theorem of_spawn_mem_handle {payload : Payload} {path : PathBuf} {cache : BlockCache}
    {ts : Timestamp} (hmem : Effect.spawn path cache ts ∈
      (handleSyncPayload D config read filePath hasWriter payload).effects) :
    ∃ action, payload = .fileAction action ∧
      action.direction = TransferDirection.upload.toI32 ∧
      getAbsolutePath D (.ofString action.path) config.syncPath = .ok path ∧
      ∃ sigs, generateBlocksSignatures D config read (.ofString action.path) =
        .ok (sigs, cache) := by
  rcases payload with action | sigs | d | b <;> simp only [handleSyncPayload] at hmem
  · split at hmem
    · cases hmem
    · split at hmem
      · rename_i hup
        unfold startUpload at hmem
        split at hmem
        · cases hmem
        · cases hmem
        · rename_i sigs cache' hgen
          split at hmem
          · simp at hmem
          · rename_i abs habs
            simp only [List.mem_cons, reduceCtorEq, Effect.spawn.injEq, List.not_mem_nil, or_false,
              false_or] at hmem
            obtain ⟨rfl, rfl, rfl⟩ := hmem
            exact ⟨action, rfl, hup, habs, sigs, hgen⟩
      · cases hmem
  · split at hmem
    · cases hmem
    · obtain ⟨m, -, hm⟩ := List.mem_map.mp hmem
      cases hm
  · split at hmem <;> simp at hmem
  · simp at hmem

/-- An upload branch that continues has sent signatures. -/
theorem signatures_of_startUpload {modifiedTs : Timestamp}
    (h : (startUpload D config read filePath modifiedTs).result = .continued) :
    ∃ sigs, (Payload.signatures sigs).request ∈
      sendsOf (startUpload D config read filePath modifiedTs).effects := by
  unfold startUpload at h ⊢
  rcases hgen : generateBlocksSignatures D config read filePath with (e | -) | ⟨sigs, cache⟩
  · rw [hgen] at h
    cases h
  · rw [hgen] at h
    cases h
  · refine ⟨sigs, ?_⟩
    rcases getAbsolutePath D filePath config.syncPath with e | abs <;>
      exact List.mem_cons_self

/-- A call for signatures that continues has sent `Complete`. -/
theorem complete_of_handle_signatures {signatures : BlockSignatures}
    (h : (handleSyncPayload D config read filePath hasWriter (.signatures signatures)).result =
      .continued) :
    completeRequest ∈
      sendsOf (handleSyncPayload D config read filePath hasWriter (.signatures signatures)).effects := by
  simp only [handleSyncPayload] at h ⊢
  rcases habs : getAbsolutePath D filePath config.syncPath with e | abs
  · rw [habs] at h
    cases h
  · simp only [habs] at h ⊢
    obtain ⟨ds, hds⟩ := sendDelta_messages D signatures (read abs)
    have hend : (sendDelta D signatures (read abs)).ending = .ok := by
      cases hend : (sendDelta D signatures (read abs)).ending with
      | ok => rfl
      | err | panic | running =>
        rw [hend] at h
        cases h
    rw [sendsOf_map_send, hds, hend]
    exact List.mem_append_right _ (List.mem_singleton_self _)

end Harmonic
