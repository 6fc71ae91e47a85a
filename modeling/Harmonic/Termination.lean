/-
Harmonic/Termination.lean

Every exchange ends.

`Host.left` bounds the steps that a task and its writers have left: what the
task still has to do before its next message, what its writers have before them,
and for every message that can still come one more call of the handler.  A step
lowers it (`Host.Move.left_lt`), as long as no call asks for more than `most`
and no more than `limit` messages come.  Both are bounded in an exchange, since
a receiver offers one of two lists of signatures and the encoder answers one of
them (`bounded_reachable`).

So all runs of an exchange are bounded, whatever fails, and they end with both
tasks returned (`exchange_ends`).  Without failures they end with the file
installed on the other side (`exchange_installs`).
-/
import Harmonic.Deadlock
import Harmonic.BlockSize
import Harmonic.Lib.Rank

namespace Harmonic

open Storage (Failure)
open Lts (Halted Ranked Ends)

/-! ### What is left -/

/-- What an effect takes: a delta that is forwarded is taken by the writer, and
a writer that is spawned has its own steps. -/
def Effect.left : Effect → ℕ
  | .send _ => 1
  | .forward _ => 2
  | .spawn .. => 4

def Effect.total (es : List Effect) : ℕ := (es.map Effect.left).sum

@[simp] theorem Effect.total_nil : Effect.total [] = 0 := rfl

@[simp] theorem Effect.total_cons (e : Effect) (es : List Effect) :
    Effect.total (e :: es) = e.left + Effect.total es := rfl

@[simp] theorem Effect.total_map_send (ms : List SyncRequest) :
    Effect.total (ms.map .send) = ms.length := by
  induction ms with
  | nil => rfl
  | cons m ms ih => simp [Effect.left, ih, Nat.add_comm]

/-- The steps of a task up to its next message, if a call of the handler takes
`most` at the most. -/
def Pc.left (most : ℕ) : Pc → ℕ
  | .connect => 13
  | .sendAction => 12
  | .sigCheck => 11
  | .sigRead => 10
  | .sigSend _ => 9
  | .writerCheck => 8
  | .writerRead => 7
  | .writerSpawn _ => 6
  | .handling _ => most + 4
  | .running es _ => Effect.total es + 3
  | .recv => 2
  | .sleeping => 1
  | .ended _ => 0

namespace Host

/-- The steps that a task and its writers have left, if no more than `limit`
messages come in. -/
def left (most limit : ℕ) (h : Host) : ℕ :=
  (most + 4) * (limit - h.received.length) + h.pc.left most + (h.writers.map Writer.rounds).sum

variable {D : Crates} {config : Config} {action : FileAction} {cap most limit : ℕ}
  {h h' : Host} {e : HostEvent}

theorem sum_set_left {ws : List Writer} {k : ℕ} {w : Writer} (w' : Writer) (hk : ws[k]? = some w) :
    ((ws.set k w').map Writer.rounds).sum + w.rounds = (ws.map Writer.rounds).sum + w'.rounds := by
  induction ws generalizing k with
  | nil => cases hk
  | cons v ws ih =>
    rcases k with - | k
    · obtain rfl := Option.some.inj hk
      simp only [List.set_cons_zero, List.map_cons, List.sum_cons]
      omega
    · have := ih (k := k) (by simpa using hk)
      simp only [List.set_cons_succ, List.map_cons, List.sum_cons]
      omega

/-- One message less can come. -/
theorem left_recv {m : SyncRequest} {pc : Pc} (hlimit : h.received.length < limit)
    (hpc : pc.left most < most + 4 + h.pc.left most) :
    ({ h with pc, received := h.received ++ [m] } : Host).left most limit <
      h.left most limit := by
  have hsplit : limit - h.received.length = (limit - (h.received ++ [m]).length) + 1 := by
    rw [List.length_append, List.length_singleton]
    omega
  simp only [left, hsplit, Nat.mul_add, Nat.mul_one]
  omega

/-- The task goes on, with nothing new for its writers. -/
theorem left_lt_of_pc {h h' : Host} (hreceived : h'.received = h.received)
    (hwriters : h'.writers = h.writers) (hpc : h'.pc.left most < h.pc.left most) :
    h'.left most limit < h.left most limit := by
  simp only [left, hreceived, hwriters]
  omega

/-- Starting a writer. -/
theorem left_spawnWriter {path : PathBuf} {cache : BlockCache} {ts : Timestamp} {pc : Pc}
    (hpc : pc.left most + 3 < h.pc.left most) :
    (h.spawnWriter path cache ts pc).left most limit < h.left most limit := by
  simp only [left, spawnWriter, List.map_append, List.sum_append, List.map_cons, List.map_nil,
    List.sum_cons, List.sum_nil, Writer.rounds, Writer.spawn, Writer.queue, Fifo.inFlight,
    List.drop_nil, List.length_nil]
  omega

/-- **Step.**  Every move of a host leaves it less, if its messages are within
the limit, the handler's calls take `most` at the most, and none of them goes on
for ever. -/
theorem Move.left_lt (hm : Move D config action cap h e h')
    (hlimit : h'.received.length ≤ limit)
    (hmost : ∀ payload read, h.pc = .handling payload → h.Reads e read →
      Effect.total (handleSyncPayload D config read h.filePath h.writerTx.isSome payload).effects ≤
        most)
    (hgoes : h.pc ≠ .running [] .running) : h'.left most limit < h.left most limit := by
  cases hm with
  | connect hpc => exact left_lt_of_pc rfl rfl (by simp [hpc, Pc.left])
  | refused hpc =>
    refine left_lt_of_pc rfl rfl ?_
    rcases hpc with hpc | hpc <;> simp [hpc, Pc.left, hangUp]
  | sendAction hpc =>
    refine left_lt_of_pc rfl rfl ?_
    show Pc.left most (if _ then _ else _) < _
    rw [hpc]
    split <;> simp [Pc.left]
  | sigCheck ev exist hpc =>
    refine left_lt_of_pc rfl rfl ?_
    rcases exist with - | - <;> simp [hpc, Pc.left]
  | sigRead ev read sigs cache hpc => exact left_lt_of_pc rfl rfl (by simp [hpc, Pc.left])
  | sigReadErr ev read err hpc => exact left_lt_of_pc rfl rfl (by simp [hpc, Pc.left])
  | readPanic ev read hpc =>
    refine left_lt_of_pc rfl rfl ?_
    rcases hpc with hpc | hpc <;> simp [hpc, Pc.left, hangUp]
  | sigSend sigs hpc =>
    refine left_lt_of_pc rfl rfl ?_
    rw [hpc]
    simp [Host.send, Pc.left]
  | sigLost sigs hpc => exact left_lt_of_pc rfl rfl (by simp [hpc, Pc.left])
  | writerCheck ev exist hpc =>
    refine left_lt_of_pc rfl rfl ?_
    rcases exist with - | - <;> simp [hpc, Pc.left]
  | writerRead ev read sigs cache hpc => exact left_lt_of_pc rfl rfl (by simp [hpc, Pc.left])
  | writerReadErr ev read err hpc => exact left_lt_of_pc rfl rfl (by simp [hpc, Pc.left])
  | writerSpawn cache hpc => exact left_spawnWriter (by simp [hpc, Pc.left])
  | handle ev read payload hpc he =>
    refine left_lt_of_pc rfl rfl ?_
    have := hmost payload read hpc he
    show Effect.total _ + 3 < _
    simp only [hpc, Pc.left]
    omega
  | send m es r hpc =>
    refine left_lt_of_pc rfl rfl ?_
    simp only [Host.send, hpc, Pc.left, Effect.total_cons, Effect.left]
    omega
  | sendLost m es r hpc =>
    exact left_lt_of_pc rfl rfl (by simp [hpc, Pc.left, hangUp])
  | forwardNowhere d es r hpc =>
    refine left_lt_of_pc rfl rfl ?_
    simp only [hpc, Pc.left, Effect.total_cons, Effect.left]
    omega
  | forwardLost d es r k w hpc => exact left_lt_of_pc rfl rfl (by simp [hpc, Pc.left, hangUp])
  | forward d es r k w hpc hk hw =>
    -- the delta is the writer's now
    have hsum := sum_set_left { w with queued := w.queued ++ [d] } hw
    have hpush := w.rounds_push d
    simp only [left, hpc, Pc.left, Effect.total_cons, Effect.left]
    omega
  | spawn path cache ts es r hpc =>
    refine left_spawnWriter ?_
    simp only [hpc, Pc.left, Effect.total_cons, Effect.left]
    omega
  | finishContinued hpc => exact left_lt_of_pc rfl rfl (by simp [hpc, Pc.left])
  | finishCompleted hpc => exact left_lt_of_pc rfl rfl (by simp [hpc, Pc.left])
  | finishErr err hpc => exact left_lt_of_pc rfl rfl (by simp [hpc, Pc.left, hangUp])
  | finishPanic hpc => exact left_lt_of_pc rfl rfl (by simp [hpc, Pc.left, hangUp])
  | finishRunning hpc => exact absurd hpc hgoes
  | wake hpc => exact left_lt_of_pc rfl rfl (by simp [hpc, Pc.left, hangUp])
  | recv m payload hpc =>
    rw [List.length_append, List.length_singleton] at hlimit
    refine left_recv (by omega) ?_
    simp only [hpc, Pc.left]
    omega
  | recvNothing m hpc =>
    rw [List.length_append, List.length_singleton] at hlimit
    refine left_recv (by omega) ?_
    simp only [hpc, Pc.left]
    omega
  | recvEnd hpc => exact left_lt_of_pc rfl rfl (by simp [hpc, Pc.left])
  | recvErr hpc => exact left_lt_of_pc rfl rfl (by simp [hpc, Pc.left, hangUp])
  | writer k ev w w' fs hw hstep =>
    have hsum := sum_set_left w' hw
    have hlt := (Writer.move_of_step hstep).rounds_lt
    simp only [left]
    omega

/-- What is left does not depend on the disk. -/
theorem left_recast (f : Fs) (n : ℕ) (h : Host) :
    (h.recast f n).left most limit = h.left most limit := by
  have hw : ∀ w : Writer, (w.reopen n).rounds = w.rounds := by
    intro w
    rw [Writer.rounds, Writer.rounds, Writer.queue_reopen]
    cases hpc : w.pc <;> simp [Writer.reopen, hpc]
  simp only [left, received_recast, pc_recast, writers_recast, List.map_map, Function.comp_def, hw]

end Host

/-! ### The encoder's loop ends -/

theorem Scan.i_lt_of_turn {D : Crates} {map : BitVec 64 → Digest → Option ℕ} {b : ℕ} {data : Bytes}
    {s s' : Scan} (hb : 1 ≤ b) (h : s.turn D map b data = .next s') : s.i < s'.i := by
  unfold Scan.turn at h
  split at h
  · cases h
  · split at h
    · -- a block
      simp only at h
      split at h
      · cases h
      · obtain rfl := Loop.Turn.next.inj h
        rw [Scan.i_recompute]
        exact Nat.lt_add_of_pos_right hb
    · split at h
      · cases h
      · -- a byte
        rename_i byte hbyte
        simp only at h
        split at h
        · cases h
        · split at h
          · rename_i s'' hroll
            obtain rfl := Loop.Turn.next.inj h
            have hi : s''.i = (s.takeByte byte).i := by
              unfold Scan.rollOn at hroll
              split at hroll
              · obtain ⟨hasher, -, rfl⟩ := Option.map_eq_some_iff.mp hroll
                rfl
              · obtain rfl := Option.some.inj hroll
                rfl
            rw [hi, Scan.i_takeByte]
            exact Nat.lt_succ_self _
          · cases h

/-- With a positive block size the encoder leaves its loop, whatever the file. -/
theorem sendDelta_ne_running {D : Crates} {sigs : BlockSignatures} (hb : 1 ≤ sigs.blockSize)
    (file : Except Failure Bytes) : (sendDelta D sigs file).ending ≠ .running := by
  cases file with
  | error f => exact Ending.noConfusion
  | ok data =>
    simp only [sendDelta, sendDeltaOn]
    rcases BuzHash.new BuzHash.ampleMemory sigs.blockSize with err | hasher
    · exact Ending.noConfusion
    · have hends := Loop.run_ne_next (fun s : Scan => data.length - s.i)
        (I := Scan.Laying D (signatureMap sigs.blocks) sigs.blockSize data)
        Scan.laying_turn
        (fun s s' hs hnext => by
          have hlt := Scan.i_lt_of_turn hb hnext
          have hle := Scan.laying_turn s hs
          rw [hnext] at hle
          have := hle.i_le
          simp only [Loop.Turn.state] at this
          omega)
        (Scan.laying_start hasher) (data.length + 1) (by omega)
      rcases hrun : Loop.run (Scan.turn D (signatureMap sigs.blocks) sigs.blockSize data)
          (data.length + 1) (Scan.start sigs.blockSize data hasher) with s | s | s <;>
        simp only [hrun]
      · exact absurd hrun (hends s)
      · exact Ending.noConfusion
      · exact Ending.noConfusion

namespace Setup

variable {S : Setup} {fs : Side → Fs} {s : Side → Host} {enc i : Side} {new : Bytes}
  {sigs : BlockSignatures}

/-! ### What an exchange can bring -/

/-- The answer to signatures that a receiver offers does not go on for ever. -/
theorem encoding_ne_running {f : Fs} (hreg : S.Regular)
    (hoff : S.Offered (fs enc.other) enc.other sigs) :
    (S.encoding f enc sigs).ending ≠ .running := by
  rcases hoff with rfl | ⟨cache, hsign⟩
  · rcases Nat.eq_zero_or_pos (S.config enc.other).blockSize with h0 | hpos
    · -- block size 0, and no blocks to find
      rw [encoding]
      rcases f.readFile (S.abs enc) with err | data
      · exact Ending.noConfusion
      · rcases @sendDelta_zero ⟨(S.config enc.other).blockSize, []⟩ S.crates data h0 with
          ⟨-, -, hsend⟩ | ⟨-, -, hend⟩ | ⟨⟨j, hj⟩, -⟩
        · rw [hsend]
          exact Ending.noConfusion
        · rw [hend]
          exact Ending.noConfusion
        · cases hj
    · exact @sendDelta_ne_running _ ⟨_, []⟩ hpos _
  · obtain ⟨hpos, -, hsize, -⟩ := blocksSignatures_eq_ok _ (signing_eq_ok hreg hsign)
    exact sendDelta_ne_running (hsize ▸ hpos) _

/-- The messages of the encoder's answers, to empty signatures and to those of
the receiver's file. -/
def most (S : Setup) (fs : Side → Fs) (enc : Side) : ℕ :=
  (S.encoding (fs enc) enc ⟨(S.config enc.other).blockSize, []⟩).messages.length +
    match S.signing (fs enc.other) enc.other with
    | .ok (sigs, _) => (S.encoding (fs enc) enc sigs).messages.length
    | .error _ => 0

theorem length_encoding_le (hoff : S.Offered (fs enc.other) enc.other sigs) :
    (S.encoding (fs enc) enc sigs).messages.length ≤ S.most fs enc := by
  rcases hoff with rfl | ⟨cache, hsign⟩
  · exact Nat.le_add_right _ _
  · simp only [most, hsign]
    exact Nat.le_add_left _ _

/-- What the encoder has received are signatures that were offered. -/
theorem offered_of_received (hreg : S.Regular) (henc : S.Encodes enc) (h : S.Reachable fs s)
    (hmem : sigRequest sigs ∈ (s enc).received) : S.Offered (fs enc.other) enc.other sigs := by
  obtain ⟨sigs', hoff, hpre⟩ := (session_invariant hreg henc h).2.sent
  obtain rfl := eq_of_sigRequest_mem ((received_isPrefix h enc).trans hpre) hmem
  exact hoff

theorem length_prologue_le (i : Side) : (S.prologue i).length ≤ 1 := by
  rcases i with - | -
  · exact le_rfl
  · exact Nat.zero_le 1

/-- No more messages than these are sent. -/
theorem length_sent_le (hreg : S.Regular) (henc : S.Encodes enc) (h : S.Reachable fs s) (i : Side) :
    (s i).sent.length ≤ S.most fs enc + 3 := by
  obtain ⟨hencoder, hreceiver⟩ := session_invariant hreg henc h
  have hpro := length_prologue_le (S := S) i
  by_cases hi : i = enc
  · subst hi
    rcases hencoder.sent with hpre | ⟨sigs, hmem, hpre⟩
    · have := hpre.length_le
      omega
    · have hlen := hpre.length_le
      have hmost := length_encoding_le (offered_of_received hreg henc h hmem)
      have hclosing : ∀ x : Ending, x.closing.length ≤ 1 := by
        intro x
        cases x <;> simp [Ending.closing]
      have hclose := hclosing (S.encoding (fs i) i sigs).ending
      simp only [answer, List.length_append] at hlen
      omega
  · obtain rfl : i = enc.other := Side.eq_other_of_ne (Ne.symm hi)
    obtain ⟨sigs, -, hpre⟩ := hreceiver.sent
    have hlen := hpre.length_le
    simp only [List.length_append, List.length_cons, List.length_nil] at hlen
    omega

/-- A call for anything but signatures takes five steps at most. -/
theorem total_handle_le {D : Crates} {config : Config} {read : PathBuf → Except Failure Bytes}
    {filePath : PathBuf} {hasWriter : Bool} {p : Payload} (hp : ∀ sigs, p ≠ .signatures sigs) :
    Effect.total (handleSyncPayload D config read filePath hasWriter p).effects ≤ 5 := by
  cases p with
  | fileAction action =>
    simp only [handleSyncPayload, startUpload]
    split
    · exact Nat.zero_le 5
    · split
      · split
        · exact Nat.zero_le 5
        · exact Nat.zero_le 5
        · split <;> simp [Effect.left]
      · exact Nat.zero_le 5
  | signatures sigs => exact absurd rfl (hp sigs)
  | delta d =>
    simp only [handleSyncPayload]
    split <;> simp [Effect.left]
  | complete b => simp [handleSyncPayload, Effect.left]

/-- The receiver is sent no signatures. -/
theorem sigRequest_notMem_received (hreg : S.Regular) (henc : S.Encodes enc)
    (h : S.Reachable fs s) (sigs : BlockSignatures) :
    sigRequest sigs ∉ (s enc.other).received := by
  intro hmem
  have hsent := (received_isPrefix h enc.other).subset hmem
  rw [Side.other_other] at hsent
  rcases (session_invariant hreg henc h).1.sent with hpre | ⟨sigs', -, hpre⟩
  · exact sigRequest_notMem_prologue _ _ (hpre.subset hsent)
  · rcases List.mem_append.mp (hpre.subset hsent) with hin | hin
    · exact sigRequest_notMem_prologue _ _ hin
    · rcases mem_answer hin with ⟨d, hd⟩ | hd <;>
        simp [sigRequest, Delta.request, completeRequest, Payload.request] at hd

/-- What a task handles it has received; only signatures can keep it for ever. -/
structure Handles (h : Host) : Prop where
  handling : ∀ p, h.pc = .handling p → p.request ∈ h.received
  running : ∀ es, h.pc = .running es .running → ∃ sigs, sigRequest sigs ∈ h.received

theorem handles_of_pc {h : Host} (hh : ∀ p, h.pc ≠ .handling p)
    (hr : ∀ es, h.pc ≠ .running es .running) : Handles h :=
  ⟨fun p hp => absurd hp (hh p), fun es hp => absurd hp (hr es)⟩

/-- **Step.** -/
theorem Handles.move {h h' : Host} {e : HostEvent} (hinv : Handles h) (hm : S.SideMove i h e h') :
    Handles h' := by
  cases hm with
  | handle ev read payload hpc he =>
    refine ⟨fun _ => Pc.noConfusion, fun es hp => ?_⟩
    have hmem := hinv.handling payload hpc
    have hres : (handleSyncPayload S.crates (S.config i) read h.filePath h.writerTx.isSome
        payload).result = .running := (Pc.running.inj hp).2
    cases payload with
    | signatures sigs => exact ⟨sigs, hmem⟩
    | fileAction action =>
      simp only [handleSyncPayload, startUpload] at hres
      split at hres
      · cases hres
      · split at hres
        · split at hres
          · cases hres
          · cases hres
          · split at hres <;> cases hres
        · cases hres
    | delta d => cases hres
    | complete b => cases hres
  | send m es r hpc | spawn path cache ts es r hpc =>
    refine ⟨fun _ => Pc.noConfusion, fun es' hp => ?_⟩
    obtain ⟨rfl, rfl⟩ := Pc.running.inj hp
    exact hinv.running _ hpc
  | forwardNowhere d es r hpc | forward d es r k w hpc =>
    refine ⟨fun _ => Pc.noConfusion, fun es' hp => ?_⟩
    obtain ⟨rfl, rfl⟩ := Pc.running.inj hp
    exact hinv.running _ hpc
  | finishRunning => exact hinv
  | writer k ev w w' fs' => exact ⟨hinv.handling, hinv.running⟩
  | recv m payload hpc hpay =>
    refine ⟨fun p hp => ?_, fun _ => Pc.noConfusion⟩
    obtain rfl := Pc.handling.inj hp
    obtain rfl : m = payload.request := congrArg SyncRequest.mk hpay
    exact List.mem_append_right _ (List.mem_singleton_self _)
  | sendAction hpc =>
    refine handles_of_pc (fun p => ?_) fun es => ?_ <;>
      · show (if _ then _ else _) ≠ _
        split <;> exact Pc.noConfusion
  | sigCheck ev exist | writerCheck ev exist =>
    rcases exist with - | - <;> exact handles_of_pc (fun p => Pc.noConfusion) fun es => Pc.noConfusion
  | _ => exact handles_of_pc (fun p => Pc.noConfusion) fun es => Pc.noConfusion

theorem handles_reachable (h : S.Reachable fs s) (i : Side) : Handles (s i) := by
  refine side_invariant h (I := fun _ => Handles) ?_ (fun s i e h' _ hI _ hm => (hI i).move hm) i
  rintro (- | -) <;> exact handles_of_pc (fun p => Pc.noConfusion) fun es => Pc.noConfusion

/-- What is asked of a number for a bound on the runs: no more messages come in,
no call takes more, and none goes on for ever. -/
structure Bounded (S : Setup) (fs : Side → Fs) (most : ℕ) : Prop where
  received : ∀ s, S.Reachable fs s → ∀ i, (s i).received.length ≤ most
  call : ∀ s, S.Reachable fs s → ∀ i p read, (s i).pc = .handling p →
    (∃ e, (s i).Reads e read) →
    Effect.total (handleSyncPayload S.crates (S.config i) read (s i).filePath
      (s i).writerTx.isSome p).effects ≤ most
  goes : ∀ s, S.Reachable fs s → ∀ i, (s i).pc ≠ .running [] .running

/-- The encoder reads its own file for an answer. -/
theorem answer_of_handling (hreg : S.Regular) (henc : S.Encodes enc) (h : S.Reachable fs s)
    (hpc : (s enc).pc = .handling (.signatures sigs)) {read : PathBuf → Except Failure Bytes}
    (hread : read = (s enc).fs.readFile ∨ read = Host.failingRead) :
    ∃ file, handleSyncPayload S.crates (S.config enc) read (s enc).filePath
        (s enc).writerTx.isSome (.signatures sigs) =
          ⟨S.target, (sendDelta S.crates sigs file).messages.map .send,
            (sendDelta S.crates sigs file).ending.result⟩ ∧
      (read = (s enc).fs.readFile → file = (fs enc).readFile (S.abs enc)) ∧
      (read = Host.failingRead → ∃ f, file = .error f) := by
  obtain ⟨hencoder, -⟩ := session_invariant hreg henc h
  have hat := hencoder.at_pc
  simp only [hpc, EncoderAt, reduceCtorEq, false_and, false_or, exists_false, or_false,
    Payload.signatures.injEq] at hat
  obtain ⟨-, -, -, hpath, -⟩ := hat
  refine ⟨read (S.abs enc), ?_, ?_, ?_⟩
  · simp only [handleSyncPayload, hpath, hreg.getAbsolutePath]
  · rintro rfl
    rw [hencoder.fs_eq]
  · rintro rfl
    exact ⟨_, rfl⟩

theorem bounded_of_encodes (hreg : S.Regular) (henc : S.Encodes enc) :
    S.Bounded fs (S.most fs enc + 5) where
  received s h i := by
    have hle := (received_isPrefix h i).length_le
    have := length_sent_le hreg henc h i.other
    omega
  call s h i p read hpc he := by
    by_cases hsigs : ∃ sigs, p = .signatures sigs
    · obtain ⟨sigs, rfl⟩ := hsigs
      have hmem : sigRequest sigs ∈ (s i).received := (handles_reachable h i).handling _ hpc
      obtain rfl : i = enc := by
        by_contra hi
        obtain rfl : i = enc.other := Side.eq_other_of_ne (Ne.symm hi)
        exact sigRequest_notMem_received hreg henc h sigs hmem
      have hread : read = (s i).fs.readFile ∨ read = Host.failingRead := by
        obtain ⟨e, ⟨-, he⟩ | ⟨-, he⟩⟩ := he
        · exact .inl he
        · exact .inr he
      obtain ⟨file, hrun, hok, hfail⟩ := answer_of_handling hreg henc h hpc hread
      rw [hrun, Effect.total_map_send]
      rcases hread with hread | hread
      · have := length_encoding_le (offered_of_received hreg henc h hmem)
        rw [hok hread]
        exact this.trans (Nat.le_add_right _ _)
      · obtain ⟨f, rfl⟩ := hfail hread
        exact Nat.zero_le _
    · exact (total_handle_le fun sigs hp => hsigs ⟨sigs, hp⟩).trans (Nat.le_add_left _ _)
  goes s h i hpc := by
    obtain ⟨sigs, hmem⟩ := (handles_reachable h i).running _ hpc
    obtain rfl : i = enc := by
      by_contra hi
      obtain rfl : i = enc.other := Side.eq_other_of_ne (Ne.symm hi)
      exact sigRequest_notMem_received hreg henc h sigs hmem
    -- the answer itself would go on for ever
    have hat := (session_invariant hreg henc h).1.at_pc
    rw [hpc] at hat
    obtain ⟨-, hr, -⟩ | ⟨sigs, ms, done, -, hr, hrec, -⟩ | ⟨err, -, hr⟩ | ⟨sigs, hr, -⟩ := hat
    · cases hr
    · have hmem : sigRequest sigs ∈ (s i).received := by simp [hrec]
      have hne : (S.encoding (fs i) i sigs).ending ≠ .running :=
        encoding_ne_running hreg (offered_of_received hreg henc h hmem)
      cases hend : (S.encoding (fs i) i sigs).ending with
      | running => exact hne hend
      | ok | err | panic =>
        rw [hend] at hr
        cases hr
    · cases hr
    · cases hr

/-- **The runs of an exchange are bounded**, whatever fails. -/
theorem exists_bounded (hreg : S.Regular) (hplan : S.Planned) (fs : Side → Fs) :
    ∃ most, S.Bounded fs most := by
  rcases hplan.cases with ⟨enc, henc⟩ | hskip
  · exact ⟨_, bounded_of_encodes hreg henc⟩
  · refine ⟨5, fun s h i => ?_, fun s h i p read hpc _ => ?_, fun s h i hpc => ?_⟩
    · have hle := (received_isPrefix h i).length_le
      have hsent := (skip_invariant hskip h i.other).sent.length_le
      have := length_prologue_le (S := S) i.other
      omega
    · have hat := (skip_invariant hskip h i).at_pc
      simp only [hpc, SkipAt] at hat
      exact total_handle_le fun sigs hp => by rw [hp] at hat; cases hat
    · have hat := (skip_invariant hskip h i).at_pc
      simp [hpc, SkipAt] at hat

instance : Fintype Side := ⟨{.client, .server}, by rintro (- | -) <;> decide⟩

/-- A step of one side leaves it less. -/
theorem Bounded.left_lt {most : ℕ} (hb : S.Bounded fs most) {e : HostEvent} {c : Host}
    (h : S.Reachable fs s) (hallow : S.allows s i e = true)
    (hstep : (s i).step S.crates (S.config i) S.action (S.writerCapacity i) e = some c) :
    c.left most most < (s i).left most most := by
  have hnext : S.Reachable fs (Function.update s i c) :=
    h.tail ⟨(i, e), Lts.Net.step_eq_some.mpr ⟨hallow, c, hstep, rfl⟩⟩
  refine (Host.move_of_step hstep).left_lt ?_ (fun p read hpc he => ?_) (hb.goes s h i)
  · have := hb.received _ hnext i
    rwa [Function.update_self] at this
  · exact hb.call s h i p read hpc ⟨e, he⟩

theorem Bounded.ranked {most : ℕ} (hb : S.Bounded fs most) :
    Ranked S.net.step (init fs) fun s => ∑ i, (s i).left most most :=
  Lts.Net.ranked (fun _ h => h.left most most)
    fun _ _ _ _ h hallow hstep => hb.left_lt h hallow hstep

/-- Both tasks have returned, and their writers have ended. -/
def Over (s : Side → Host) : Prop :=
  ∀ i, (s i).returned = true ∧ ∀ w ∈ (s i).writers, w.ended = true

/-- **Every exchange ends.**  If the action is an upload, or a download of a file
that the client can sign or does not have, and only local reads and writers fail
by themselves, then in every order of steps the exchange comes to an end after a
bounded number of them, and there both tasks have returned and all writers have
ended. -/
theorem exchange_ends (hreg : S.Regular) (hplan : S.Planned) (hlocal : S.LocalFaults)
    (hchannel : ∀ i, 0 < S.channelCapacity i) (hwriter : ∀ i, 0 < S.writerCapacity i)
    (hreq : S.Requested (fs .client)) : Ends S.net.step (init fs) Over := by
  obtain ⟨most, hb⟩ := exists_bounded hreg hplan fs
  exact hb.ranked.ends fun s h hhalt i =>
    over_of_halted hreg hplan hlocal hchannel hwriter hreq h hhalt i

/-- `exchange_ends` for an upload in which any read can fail. -/
theorem exchange_ends_upload :
    ∃ s, (sampleSetup .upload fun _ pc e => isReading pc && e = .fail).Reachable
        (sampleDisks (some [1, 2, 3]) (some [1, 2, 9])) s ∧ Over s := by
  have hlocal : (sampleSetup .upload fun _ pc e => isReading pc && e = .fail).LocalFaults := by
    intro i pc e hfault
    simp only [sampleSetup, Bool.and_eq_true, decide_eq_true_eq] at hfault
    exact .inl ⟨hfault.2, hfault.1⟩
  have hreq : (sampleSetup .upload fun _ pc e => isReading pc && e = .fail).Requested
      (sampleDisks (some [1, 2, 3]) (some [1, 2, 9]) .client) :=
    ⟨by decide, fun hsig => absurd hsig.1 (by decide)⟩
  exact (exchange_ends (sample_regular _ _) ⟨.upload, rfl⟩ hlocal (fun _ => Nat.one_pos)
    (fun _ => Nat.one_pos) hreq).exists_reaches .refl

end Setup

end Harmonic
