/-
Harmonic/Host.lean

The two tasks of one file's exchange: the client's `sync_file` and the task that
the server spawns in `handle_sync_request_stream`.

Both end in the same loop: take a message from the stream, hand it to
`handle_sync_payload`, leave after `Completed` or at the end of the stream,
sleep, return.  Only the client has steps before the loop.  So one step function
serves both, and a server is a host that starts in the loop.

A host keeps the log of what it has sent and received, its file system, and the
`delta_writer` tasks it has spawned; these run on their own
(`HostEvent.writer`).  `ok` and `fail` are the two outcomes of the operation a
task is at.
-/
import Harmonic.Handler
import Harmonic.Writer

namespace Harmonic

open Storage (Failure)

/-- Where the task stands.  The first eight are `sync_file` before its loop. -/
inductive Pc
  | connect
  | sendAction
  | sigCheck
  | sigRead
  | sigSend (signatures : BlockSignatures)
  | writerCheck
  | writerRead
  | writerSpawn (cache : BlockCache)
  | recv
  | handling (payload : Payload)
  | running (effects : List Effect) (result : HandlerResult)
  | sleeping
  | ended (result : TaskResult)
  deriving DecidableEq

/-- A host in one file's exchange.  `writerTx` is the writer whose sender the
task holds; `completed` says that the loop was left after `Completed`, where
`tx` is dropped. -/
structure Host where
  pc : Pc
  filePath : PathBuf
  writerTx : Option ℕ
  completed : Bool
  sent : List SyncRequest
  received : List SyncRequest
  fs : Fs
  writers : List Writer

inductive HostEvent
  | ok
  | fail
  | recv (m : SyncRequest)
  | recvEnd
  | recvErr
  | writer (i : ℕ) (e : WriterEvent)
  deriving DecidableEq

/-- What an event takes off the incoming stream. -/
def HostEvent.incoming : HostEvent → List SyncRequest
  | .recv m => [m]
  | _ => []

namespace Host

/-- The client and the server before their first step. -/
def client (fs : Fs) : Host := ⟨.connect, default, none, false, [], [], fs, []⟩
def server (fs : Fs) : Host := ⟨.recv, default, none, false, [], [], fs, []⟩

/-- The task has returned. -/
def returned (h : Host) : Bool :=
  match h.pc with
  | .ended _ => true
  | _ => false

/-- All senders of the outgoing stream are dropped. -/
def txDropped (h : Host) : Bool := h.completed || h.returned

/-- Return; all that the task holds is dropped. -/
def hangUp (h : Host) (r : TaskResult) : Host := { h with pc := .ended r, writerTx := none }

/-- Put a message on the outgoing stream. -/
def send (h : Host) (m : SyncRequest) (pc : Pc) : Host := { h with pc, sent := h.sent ++ [m] }

/-- Start a `delta_writer`; the sender of an earlier one is dropped. -/
def spawnWriter (h : Host) (path : PathBuf) (cache : BlockCache) (modifiedTs : Timestamp)
    (pc : Pc) : Host :=
  { h with pc, writers := h.writers ++ [.spawn path cache modifiedTs],
           writerTx := some h.writers.length }

/-- A read that fails. -/
def failingRead : PathBuf → Except Failure Bytes := fun _ => .error .other

variable (D : Crates) (config : Config) (action : FileAction) (writerCapacity : ℕ)

/-- `abs_file_path`. -/
def absFilePath : PathBuf := config.syncPath.join (.ofString action.path)

/-- After the signature read of a download; an error is ignored. -/
def afterSigRead (h : Host) (r : Except Halt (BlockSignatures × BlockCache)) : Host :=
  match r with
  | .ok (signatures, _) => { h with pc := .sigSend signatures }
  | .error (.err _) => { h with pc := .writerCheck }
  | .error .panic => h.hangUp .panic

/-- After the read for the block cache; an error gives an empty cache. -/
def afterWriterRead (h : Host) (r : Except Halt (BlockSignatures × BlockCache)) : Host :=
  match r with
  | .ok (_, cache) => { h with pc := .writerSpawn cache }
  | .error (.err _) => { h with pc := .writerSpawn ⟨[]⟩ }
  | .error .panic => h.hangUp .panic

/-- Call the handler. -/
def handle (h : Host) (read : PathBuf → Except Failure Bytes) (payload : Payload) : Host :=
  let run := handleSyncPayload D config read h.filePath h.writerTx.isSome payload
  { h with pc := .running run.effects run.result, filePath := run.filePath }

/-- Pass a delta to the writer.  This waits while the channel is full, and
fails when the writer has ended. -/
def forward (h : Host) (d : Delta) (pc : Pc) : Option Host :=
  match h.writerTx with
  | none => some { h with pc }
  | some i =>
    match h.writers[i]? with
    | none => none
    | some w =>
      if w.ended then some (h.hangUp .err)
      else if w.queue.length < writerCapacity then
        some { h with pc, writers := h.writers.set i { w with queued := w.queued ++ [d] } }
      else none

/-- Carry out one effect, with `pc` for what is left. -/
def perform (h : Host) (pc : Pc) : Effect → Option Host
  | .send m => some (h.send m pc)
  | .forward d => h.forward writerCapacity d pc
  | .spawn path cache modifiedTs => some (h.spawnWriter path cache modifiedTs pc)

/-- What the loop does with the handler's result. -/
def finish (h : Host) : HandlerResult → Host
  | .continued => { h with pc := .recv }
  | .completed => { h with pc := .sleeping, writerTx := none, completed := true }
  | .err _ => h.hangUp .err
  | .panic => h.hangUp .panic
  | .running => h

/-- The operation at hand succeeds. -/
def stepOk (h : Host) : Option Host :=
  match h.pc with
  | .connect => some { h with pc := .sendAction }
  | .sendAction =>
    some (({ h with filePath := .ofString action.path } : Host).send
      (Payload.fileAction action).request
      (if action.direction = TransferDirection.download.toI32 then .sigCheck else .recv))
  | .sigCheck =>
    some { h with
      pc := if h.fs.pathExists (absFilePath config action) then .sigRead
        else .sigSend ⟨config.blockSize, []⟩ }
  | .sigRead =>
    some (h.afterSigRead (generateBlocksSignatures D config h.fs.readFile h.filePath))
  | .sigSend signatures => some (h.send (Payload.signatures signatures).request .writerCheck)
  | .writerCheck =>
    some { h with
      pc := if h.fs.pathExists (absFilePath config action) then .writerRead
        else .writerSpawn ⟨[]⟩ }
  | .writerRead =>
    some (h.afterWriterRead (generateBlocksSignatures D config h.fs.readFile h.filePath))
  | .writerSpawn cache =>
    some (h.spawnWriter (absFilePath config action) cache
      (action.timestampLatestModified.getD default) .recv)
  | .recv => none
  | .handling payload => some (h.handle D config h.fs.readFile payload)
  | .running (e :: es) r => h.perform writerCapacity (.running es r) e
  | .running [] r => some (h.finish r)
  | .sleeping => some (h.hangUp .ok)
  | .ended _ => none

/-- The operation at hand fails.  `sync_file` ignores the failures of a
download before its loop. -/
def stepFail (h : Host) : Option Host :=
  match h.pc with
  | .connect | .sendAction => some (h.hangUp .err)
  | .sigCheck => some { h with pc := .sigSend ⟨config.blockSize, []⟩ }
  | .sigRead => some (h.afterSigRead (generateBlocksSignatures D config failingRead h.filePath))
  | .sigSend _ => some { h with pc := .writerCheck }
  | .writerCheck => some { h with pc := .writerSpawn ⟨[]⟩ }
  | .writerRead =>
    some (h.afterWriterRead (generateBlocksSignatures D config failingRead h.filePath))
  | .handling payload => some (h.handle D config failingRead payload)
  | .running (.send _ :: _) _ => some (h.hangUp .err)
  | _ => none

/-- A writer of this host moves. -/
def stepWriter (h : Host) (i : ℕ) (e : WriterEvent) : Option Host :=
  match h.writers[i]? with
  | none => none
  | some w =>
    (w.step (h.writerTx ≠ some i) h.fs e).map fun (fs, w') =>
      { h with fs, writers := h.writers.set i w' }

/-- One step of a host. -/
def step (h : Host) : HostEvent → Option Host
  | .ok => h.stepOk D config action writerCapacity
  | .fail => h.stepFail D config
  | .recv m =>
    match h.pc with
    | .recv =>
      some { h with
        pc := match m.payload with
          | some payload => .handling payload
          | none => .recv
        received := h.received ++ [m] }
    | _ => none
  | .recvEnd =>
    match h.pc with
    | .recv => some { h with pc := .sleeping }
    | _ => none
  | .recvErr =>
    match h.pc with
    | .recv => some (h.hangUp .err)
    | _ => none
  | .writer i e => h.stepWriter i e

/-! ### What a step can do -/

variable {D config action writerCapacity}

/-- The file system answers a read, or the read fails. -/
def Reads (h : Host) (e : HostEvent) (read : PathBuf → Except Failure Bytes) : Prop :=
  e = .ok ∧ read = h.fs.readFile ∨ e = .fail ∧ read = failingRead

/-- The file system answers `exists`, or the check fails and answers no. -/
def Sees (h : Host) (e : HostEvent) (path : PathBuf) (exist : Bool) : Prop :=
  e = .ok ∧ exist = h.fs.pathExists path ∨ e = .fail ∧ exist = false

theorem Reads.incoming {h : Host} {e : HostEvent} {read : PathBuf → Except Failure Bytes}
    (he : h.Reads e read) : e.incoming = [] := by
  rcases he with ⟨rfl, -⟩ | ⟨rfl, -⟩ <;> rfl

theorem Sees.incoming {h : Host} {e : HostEvent} {path : PathBuf} {exist : Bool}
    (he : h.Sees e path exist) : e.incoming = [] := by
  rcases he with ⟨rfl, -⟩ | ⟨rfl, -⟩ <;> rfl

/-- The steps of a host, one constructor for each. -/
inductive Move (D : Crates) (config : Config) (action : FileAction) (writerCapacity : ℕ)
    (h : Host) : HostEvent → Host → Prop
  | connect (hpc : h.pc = .connect) : Move D config action writerCapacity h .ok
      { h with pc := .sendAction }
  | refused (hpc : h.pc = .connect ∨ h.pc = .sendAction) :
      Move D config action writerCapacity h .fail (h.hangUp .err)
  | sendAction (hpc : h.pc = .sendAction) : Move D config action writerCapacity h .ok
      (({ h with filePath := .ofString action.path } : Host).send
        (Payload.fileAction action).request
        (if action.direction = TransferDirection.download.toI32 then .sigCheck else .recv))
  | sigCheck (e : HostEvent) (exist : Bool) (hpc : h.pc = .sigCheck)
      (he : h.Sees e (absFilePath config action) exist) :
      Move D config action writerCapacity h e
        { h with pc := if exist then .sigRead else .sigSend ⟨config.blockSize, []⟩ }
  | sigRead (e : HostEvent) (read : PathBuf → Except Failure Bytes) (sigs : BlockSignatures)
      (cache : BlockCache) (hpc : h.pc = .sigRead) (he : h.Reads e read)
      (hgen : generateBlocksSignatures D config read h.filePath = .ok (sigs, cache)) :
      Move D config action writerCapacity h e { h with pc := .sigSend sigs }
  | sigReadErr (e : HostEvent) (read : PathBuf → Except Failure Bytes) (err : HarmonicError)
      (hpc : h.pc = .sigRead) (he : h.Reads e read)
      (hgen : generateBlocksSignatures D config read h.filePath = .error (.err err)) :
      Move D config action writerCapacity h e { h with pc := .writerCheck }
  | readPanic (e : HostEvent) (read : PathBuf → Except Failure Bytes)
      (hpc : h.pc = .sigRead ∨ h.pc = .writerRead) (he : h.Reads e read)
      (hgen : generateBlocksSignatures D config read h.filePath = .error .panic) :
      Move D config action writerCapacity h e (h.hangUp .panic)
  | sigSend (sigs : BlockSignatures) (hpc : h.pc = .sigSend sigs) :
      Move D config action writerCapacity h .ok
        (h.send (Payload.signatures sigs).request .writerCheck)
  | sigLost (sigs : BlockSignatures) (hpc : h.pc = .sigSend sigs) :
      Move D config action writerCapacity h .fail { h with pc := .writerCheck }
  | writerCheck (e : HostEvent) (exist : Bool) (hpc : h.pc = .writerCheck)
      (he : h.Sees e (absFilePath config action) exist) :
      Move D config action writerCapacity h e
        { h with pc := if exist then .writerRead else .writerSpawn ⟨[]⟩ }
  | writerRead (e : HostEvent) (read : PathBuf → Except Failure Bytes) (sigs : BlockSignatures)
      (cache : BlockCache) (hpc : h.pc = .writerRead) (he : h.Reads e read)
      (hgen : generateBlocksSignatures D config read h.filePath = .ok (sigs, cache)) :
      Move D config action writerCapacity h e { h with pc := .writerSpawn cache }
  | writerReadErr (e : HostEvent) (read : PathBuf → Except Failure Bytes) (err : HarmonicError)
      (hpc : h.pc = .writerRead) (he : h.Reads e read)
      (hgen : generateBlocksSignatures D config read h.filePath = .error (.err err)) :
      Move D config action writerCapacity h e { h with pc := .writerSpawn ⟨[]⟩ }
  | writerSpawn (cache : BlockCache) (hpc : h.pc = .writerSpawn cache) :
      Move D config action writerCapacity h .ok
        (h.spawnWriter (absFilePath config action) cache
          (action.timestampLatestModified.getD default) .recv)
  | handle (e : HostEvent) (read : PathBuf → Except Failure Bytes) (payload : Payload)
      (hpc : h.pc = .handling payload)
      (he : h.Reads e read) :
      Move D config action writerCapacity h e (h.handle D config read payload)
  | send (m : SyncRequest) (es : List Effect) (r : HandlerResult)
      (hpc : h.pc = .running (.send m :: es) r) :
      Move D config action writerCapacity h .ok (h.send m (.running es r))
  | sendLost (m : SyncRequest) (es : List Effect) (r : HandlerResult)
      (hpc : h.pc = .running (.send m :: es) r) :
      Move D config action writerCapacity h .fail (h.hangUp .err)
  | forwardNowhere (d : Delta) (es : List Effect) (r : HandlerResult)
      (hpc : h.pc = .running (.forward d :: es) r) (hw : h.writerTx = none) :
      Move D config action writerCapacity h .ok { h with pc := .running es r }
  | forwardLost (d : Delta) (es : List Effect) (r : HandlerResult) (i : ℕ) (w : Writer)
      (hpc : h.pc = .running (.forward d :: es) r) (hi : h.writerTx = some i)
      (hw : h.writers[i]? = some w) (hover : w.ended = true) :
      Move D config action writerCapacity h .ok (h.hangUp .err)
  | forward (d : Delta) (es : List Effect) (r : HandlerResult) (i : ℕ) (w : Writer)
      (hpc : h.pc = .running (.forward d :: es) r) (hi : h.writerTx = some i)
      (hw : h.writers[i]? = some w) (hover : w.ended = false)
      (hcap : w.queue.length < writerCapacity) :
      Move D config action writerCapacity h .ok
        { h with pc := .running es r,
                 writers := h.writers.set i { w with queued := w.queued ++ [d] } }
  | spawn (path : PathBuf) (cache : BlockCache) (modifiedTs : Timestamp) (es : List Effect)
      (r : HandlerResult) (hpc : h.pc = .running (.spawn path cache modifiedTs :: es) r) :
      Move D config action writerCapacity h .ok
        (h.spawnWriter path cache modifiedTs (.running es r))
  | finishContinued (hpc : h.pc = .running [] .continued) :
      Move D config action writerCapacity h .ok { h with pc := .recv }
  | finishCompleted (hpc : h.pc = .running [] .completed) :
      Move D config action writerCapacity h .ok
        { h with pc := .sleeping, writerTx := none, completed := true }
  | finishErr (err : HarmonicError) (hpc : h.pc = .running [] (.err err)) :
      Move D config action writerCapacity h .ok (h.hangUp .err)
  | finishPanic (hpc : h.pc = .running [] .panic) :
      Move D config action writerCapacity h .ok (h.hangUp .panic)
  | finishRunning (hpc : h.pc = .running [] .running) :
      Move D config action writerCapacity h .ok h
  | wake (hpc : h.pc = .sleeping) : Move D config action writerCapacity h .ok (h.hangUp .ok)
  | recv (m : SyncRequest) (payload : Payload) (hpc : h.pc = .recv)
      (hm : m.payload = some payload) : Move D config action writerCapacity h (.recv m)
        { h with pc := .handling payload, received := h.received ++ [m] }
  | recvNothing (m : SyncRequest) (hpc : h.pc = .recv) (hm : m.payload = none) :
      Move D config action writerCapacity h (.recv m)
        { h with pc := .recv, received := h.received ++ [m] }
  | recvEnd (hpc : h.pc = .recv) : Move D config action writerCapacity h .recvEnd
      { h with pc := .sleeping }
  | recvErr (hpc : h.pc = .recv) : Move D config action writerCapacity h .recvErr
      (h.hangUp .err)
  | writer (i : ℕ) (e : WriterEvent) (w w' : Writer) (fs : Fs) (hw : h.writers[i]? = some w)
      (hstep : w.step (h.writerTx ≠ some i) h.fs e = some (fs, w')) :
      Move D config action writerCapacity h (.writer i e)
        { h with fs, writers := h.writers.set i w' }

theorem move_sigRead {h : Host} {e : HostEvent} {read : PathBuf → Except Failure Bytes}
    (hpc : h.pc = .sigRead) (he : h.Reads e read) : Move D config action writerCapacity h e
      (h.afterSigRead (generateBlocksSignatures D config read h.filePath)) := by
  rcases hgen : generateBlocksSignatures D config read h.filePath with
    (err | -) | ⟨sigs, cache⟩
  · exact .sigReadErr e read err hpc he hgen
  · exact .readPanic e read (.inl hpc) he hgen
  · exact .sigRead e read sigs cache hpc he hgen

theorem move_writerRead {h : Host} {e : HostEvent} {read : PathBuf → Except Failure Bytes}
    (hpc : h.pc = .writerRead) (he : h.Reads e read) : Move D config action writerCapacity h e
      (h.afterWriterRead (generateBlocksSignatures D config read h.filePath)) := by
  rcases hgen : generateBlocksSignatures D config read h.filePath with
    (err | -) | ⟨sigs, cache⟩
  · exact .writerReadErr e read err hpc he hgen
  · exact .readPanic e read (.inr hpc) he hgen
  · exact .writerRead e read sigs cache hpc he hgen

/-- What the step of a writer is. -/
theorem stepWriter_eq_some {h h' : Host} {i : ℕ} {e : WriterEvent}
    (hstep : h.stepWriter i e = some h') : ∃ w fs w', h.writers[i]? = some w ∧
      w.step (h.writerTx ≠ some i) h.fs e = some (fs, w') ∧
      h' = { h with fs, writers := h.writers.set i w' } := by
  unfold stepWriter at hstep
  split at hstep
  · cases hstep
  · rename_i w hw
    obtain ⟨⟨fs, w'⟩, hw', rfl⟩ := Option.map_eq_some_iff.mp hstep
    exact ⟨w, fs, w', hw, hw', rfl⟩

/-- **Inversion**: every step is one of the moves. -/
theorem move_of_step {h h' : Host} {e : HostEvent}
    (hstep : h.step D config action writerCapacity e = some h') :
    Move D config action writerCapacity h e h' := by
  rcases e with - | - | m | - | - | ⟨i, e⟩ <;> simp only [step] at hstep
  · -- `ok`
    unfold stepOk at hstep
    split at hstep <;> try cases Option.some.inj hstep
    · exact .connect ‹_›
    · exact .sendAction ‹_›
    · exact .sigCheck _ _ ‹_› (.inl ⟨rfl, rfl⟩)
    · exact move_sigRead ‹_› (.inl ⟨rfl, rfl⟩)
    · exact .sigSend _ ‹_›
    · exact .writerCheck _ _ ‹_› (.inl ⟨rfl, rfl⟩)
    · exact move_writerRead ‹_› (.inl ⟨rfl, rfl⟩)
    · exact .writerSpawn _ ‹_›
    · cases hstep
    · exact .handle _ _ _ ‹_› (.inl ⟨rfl, rfl⟩)
    · rename_i eff es r hpc
      rcases eff with m | d | ⟨path, cache, ts⟩ <;> simp only [perform] at hstep
      · cases Option.some.inj hstep
        exact .send m es r hpc
      · unfold Host.forward at hstep
        split at hstep
        · cases Option.some.inj hstep
          exact .forwardNowhere d es r hpc ‹_›
        · split at hstep
          · cases hstep
          · split at hstep
            · cases Option.some.inj hstep
              exact .forwardLost d es r _ _ hpc ‹_› ‹_› ‹_›
            · rename_i hover
              split at hstep
              · cases Option.some.inj hstep
                exact .forward d es r _ _ hpc ‹_› ‹_› (by simpa using hover) ‹_›
              · cases hstep
      · cases Option.some.inj hstep
        exact .spawn path cache ts es r hpc
    · rename_i r hpc
      rcases r with - | - | err | - | -
      · exact .finishContinued hpc
      · exact .finishCompleted hpc
      · exact .finishErr err hpc
      · exact .finishPanic hpc
      · exact .finishRunning hpc
    · exact .wake ‹_›
    · cases hstep
  · -- `fail`
    unfold stepFail at hstep
    split at hstep <;> try cases Option.some.inj hstep
    · exact .refused (.inl ‹_›)
    · exact .refused (.inr ‹_›)
    · exact .sigCheck _ false ‹_› (.inr ⟨rfl, rfl⟩)
    · exact move_sigRead ‹_› (.inr ⟨rfl, rfl⟩)
    · exact .sigLost _ ‹_›
    · exact .writerCheck _ false ‹_› (.inr ⟨rfl, rfl⟩)
    · exact move_writerRead ‹_› (.inr ⟨rfl, rfl⟩)
    · exact .handle _ _ _ ‹_› (.inr ⟨rfl, rfl⟩)
    · exact .sendLost _ _ _ ‹_›
    · cases hstep
  · -- `recv`
    split at hstep
    · cases Option.some.inj hstep
      rcases hm : m.payload with - | payload
      · exact .recvNothing m ‹_› hm
      · exact .recv m payload ‹_› hm
    · cases hstep
  · split at hstep
    · cases Option.some.inj hstep
      exact .recvEnd ‹_›
    · cases hstep
  · split at hstep
    · cases Option.some.inj hstep
      exact .recvErr ‹_›
    · cases hstep
  · -- a writer
    obtain ⟨w, fs, w', hw, hw', rfl⟩ := stepWriter_eq_some hstep
    exact .writer i e w w' fs hw hw'

/-! ### What a step does to the writers -/

/-- Where a writer of the host comes from after the step `e`. -/
inductive WriterOrigin (h : Host) (e : HostEvent) (w' : Writer) : Prop
  | same (hw : w' ∈ h.writers)
  | spawned (path : PathBuf) (cache : BlockCache) (modifiedTs : Timestamp)
      (hw : w' = .spawn path cache modifiedTs)
  | pushed (w : Writer) (d : Delta) (hw : w ∈ h.writers)
      (hw' : w' = { w with queued := w.queued ++ [d] })
  | moved (i : ℕ) (ev : WriterEvent) (w : Writer) (fs : Fs) (he : e = .writer i ev)
      (hw : h.writers[i]? = some w)
      (hm : Writer.Move (h.writerTx ≠ some i) h.fs w ev fs w')

theorem origin_spawnWriter {h : Host} {e : HostEvent} {path : PathBuf} {cache : BlockCache}
    {ts : Timestamp} {pc : Pc} {w' : Writer} (hw : w' ∈ (h.spawnWriter path cache ts pc).writers) :
    WriterOrigin h e w' := by
  rcases List.mem_append.mp hw with hw | hw
  · exact .same hw
  · exact .spawned path cache ts (List.mem_singleton.mp hw)

theorem Move.origin {h h' : Host} {e : HostEvent}
    (hm : Move D config action writerCapacity h e h') {w' : Writer} (hw : w' ∈ h'.writers) :
    WriterOrigin h e w' := by
  cases hm with
  | writerSpawn cache hpc => exact origin_spawnWriter hw
  | spawn path cache ts es r hpc => exact origin_spawnWriter hw
  | forward d es r i w hpc hi hget =>
    rcases List.mem_or_eq_of_mem_set hw with hw | rfl
    · exact .same hw
    · exact .pushed w d (List.mem_of_getElem? hget) rfl
  | writer i ev w w'' fs hget hstep =>
    rcases List.mem_or_eq_of_mem_set hw with hw | rfl
    · exact .same hw
    · exact .moved i ev w fs rfl hget (Writer.move_of_step hstep)
  | _ => exact .same hw

/-- Only the writers change the disk. -/
theorem Move.fs_eq {h h' : Host} {e : HostEvent} (hm : Move D config action writerCapacity h e h')
    (he : ∀ k ev, e ≠ .writer k ev) : h'.fs = h.fs := by
  cases hm with
  | writer i ev w w' fs hw hstep => exact absurd rfl (he i ev)
  | _ => rfl

/-- A task that has returned stays so. -/
theorem returned_of_step {h h' : Host} {e : HostEvent}
    (hstep : h.step D config action writerCapacity e = some h') (hret : h.returned = true) :
    h'.returned = true := by
  have hended : ∃ r, h.pc = .ended r := by
    rcases hpc : h.pc <;> simp [returned, hpc] at hret ⊢
  obtain ⟨r, hended⟩ := hended
  rcases e with - | - | m | - | - | ⟨i, e⟩
  · simp [step, stepOk, hended] at hstep
  · simp [step, stepFail, hended] at hstep
  · simp [step, hended] at hstep
  · simp [step, hended] at hstep
  · simp [step, hended] at hstep
  · obtain ⟨w, fs, w', -, -, rfl⟩ := stepWriter_eq_some hstep
    exact hret

/-- The sender a task holds is that of a writer it has spawned. -/
theorem Move.writerTx_lt {h h' : Host} {e : HostEvent}
    (hm : Move D config action writerCapacity h e h')
    (hlt : ∀ k, h.writerTx = some k → k < h.writers.length) :
    ∀ k, h'.writerTx = some k → k < h'.writers.length := by
  intro k hk
  cases hm with
  | writerSpawn | spawn =>
    simp only [spawnWriter, Option.some.injEq] at hk
    simp [spawnWriter, ← hk]
  | forward | writer =>
    simp only [List.length_set]
    exact hlt k hk
  | refused | readPanic | sendLost | forwardLost | finishCompleted | finishErr | finishPanic | wake
  | recvErr => cases hk
  | _ => exact hlt k hk

/-- A task returns `Ok` from its sleep only. -/
theorem Move.of_ended_ok {h h' : Host} {e : HostEvent}
    (hm : Move D config action writerCapacity h e h') (hpc : h'.pc = .ended .ok) :
    h.pc = .ended .ok ∨ e = .ok ∧ h.pc = .sleeping := by
  cases hm with
  | wake hsleep => exact .inr ⟨rfl, hsleep⟩
  | writer => exact .inl hpc
  | finishRunning => exact .inl hpc
  | sendAction =>
    simp only [Host.send] at hpc
    split at hpc <;> cases hpc
  | sigCheck e exist => rcases exist with - | - <;> cases hpc
  | writerCheck e exist => rcases exist with - | - <;> cases hpc
  | _ => cases hpc

end Host

end Harmonic
