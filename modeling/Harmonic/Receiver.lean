/-
Harmonic/Receiver.lean

The side that is written to: the server of an upload, the client of a download.

It sends signatures of what it has, spawns one writer, and passes it every
delta it receives until `Complete`.  `Before` is the receiver up to the spawn,
`After` from then on; `After` carries the writer's own invariant and says that
what was queued for the writer is the deltas received so far.  `Relays` is the
part of `After` that holds whatever else happens to the disk.
-/
import Harmonic.Encoder

namespace Harmonic

open Storage (Failure)

namespace Setup

variable (S : Setup)

/-! ### What the receiver offers -/

/-- Side `i` signs the file. -/
def signing (fs : Fs) (i : Side) : Except Halt (BlockSignatures × BlockCache) :=
  generateBlocksSignatures S.crates (S.config i) fs.readFile S.target

/-- Signatures that side `i` can send: those of the file, or empty ones. -/
def Offered (fs : Fs) (i : Side) (sigs : BlockSignatures) : Prop :=
  sigs = ⟨(S.config i).blockSize, []⟩ ∨ ∃ cache, S.signing fs i = .ok (sigs, cache)

/-- Some operation of side `i` can fail by itself. -/
def Faulty (i : Side) : Prop := ∃ pc, S.fault i pc .fail = true

/-- Reading the file need not give its blocks: it is not there, it cannot be
signed, or a failure comes in. -/
def Unread (fs : Fs) (i : Side) : Prop :=
  fs.pathExists (S.abs i) = false ∨ (∃ err, S.signing fs i = .error (.err err)) ∨ S.Faulty i

/-- Caches that side `i` can give its writer: the file's blocks, or none. -/
def Cached (fs : Fs) (i : Side) (cache : BlockCache) : Prop :=
  (∃ sigs, S.signing fs i = .ok (sigs, cache)) ∨ cache = ⟨[]⟩ ∧ S.Unread fs i

/-- Signatures have gone out after the prologue. -/
def SigSent (fs : Fs) (i : Side) (h : Host) : Prop :=
  ∃ sigs, S.Offered fs i sigs ∧ h.sent = S.prologue i ++ [sigRequest sigs]

/-- `Complete` is the message received last, and only there. -/
def Done (received : List SyncRequest) : Prop :=
  ∃ rest, received = rest ++ [completeRequest] ∧ completeRequest ∉ rest

/-! ### Up to the spawn -/

/-- What holds at a point of the receiver's task before it has a writer. -/
def BeforeAt (fs : Fs) (i : Side) (h : Host) : Pc → Prop
  | .connect | .sendAction => i = .client ∧ h.sent = [] ∧ h.received = []
  | .sigCheck | .sigRead =>
    i = .client ∧ h.received = [] ∧ h.filePath = S.target ∧ h.sent = S.prologue i
  | .sigSend sigs =>
    i = .client ∧ h.received = [] ∧ h.filePath = S.target ∧ h.sent = S.prologue i ∧
      S.Offered fs i sigs
  | .writerCheck | .writerRead =>
    i = .client ∧ h.received = [] ∧ h.filePath = S.target ∧
      (h.sent = S.prologue i ∨ S.SigSent fs i h)
  | .writerSpawn cache =>
    i = .client ∧ h.received = [] ∧ (h.sent = S.prologue i ∨ S.SigSent fs i h) ∧
      S.Cached fs i cache
  | .recv => i = .server ∧ h.sent = [] ∧ h.received = []
  | .handling p =>
    i = .server ∧ p = .fileAction S.action ∧ h.sent = [] ∧ h.received = [S.actionRequest]
  | .running es r =>
    i = .server ∧ h.received = [S.actionRequest] ∧
      ((∃ sigs cache ts, S.signing fs i = .ok (sigs, cache) ∧ r = .continued ∧
          (es = [.send (sigRequest sigs), .spawn (S.abs i) cache ts] ∧ h.sent = [] ∨
            es = [.spawn (S.abs i) cache ts] ∧ S.SigSent fs i h)) ∨
        es = [] ∧ r ≠ .continued ∧ r ≠ .completed)
  | .sleeping | .ended _ => True

structure Before (fs : Fs) (i : Side) (h : Host) : Prop where
  fs_eq : h.fs = fs
  writers : h.writers = []
  writerTx : h.writerTx = none
  completed : h.completed = false
  sent : ∃ sigs, S.Offered fs i sigs ∧ h.sent <+: S.prologue i ++ [sigRequest sigs]
  at_pc : S.BeforeAt fs i h h.pc

/-! ### From the spawn on -/

/-- What holds at a point of the receiver's task when it has the writer `w`. -/
def AfterAt (fs : Fs) (i : Side) (h : Host) (w : Writer) : Pc → Prop
  | .recv =>
    h.writerTx = some 0 ∧ h.completed = false ∧ w.queued = deltasOf h.received ∧
      completeRequest ∉ h.received ∧ (h.sent = S.prologue i ∨ S.SigSent fs i h)
  | .handling p =>
    h.writerTx = some 0 ∧ h.completed = false ∧ (h.sent = S.prologue i ∨ S.SigSent fs i h) ∧
      ((∃ d, p = .delta d ∧ w.queued ++ [d] = deltasOf h.received ∧
          completeRequest ∉ h.received) ∨
        p = .complete true ∧ w.queued = deltasOf h.received ∧ Done h.received ∧
          S.SigSent fs i h)
  | .running es r =>
    h.writerTx = some 0 ∧ h.completed = false ∧
      (r = .continued ∧ completeRequest ∉ h.received ∧
          (h.sent = S.prologue i ∨ S.SigSent fs i h) ∧
          ((∃ d, es = [.forward d] ∧ w.queued ++ [d] = deltasOf h.received) ∨
            es = [] ∧ w.queued = deltasOf h.received) ∨
        r = .completed ∧ w.queued = deltasOf h.received ∧ Done h.received ∧
          (es = [.send completeRequest] ∧ S.SigSent fs i h ∨ es = []))
  | .sleeping | .ended _ => True
  | _ => False

structure After (fs : Fs) (i : Side) (h : Host) (w : Writer) : Prop where
  writers : h.writers = [w]
  path : w.path = S.abs i
  cached : S.Cached fs i w.cache
  writer : w.Inv fs h.fs
  got : S.prologue i.other <+: h.received
  sent : ∃ sigs, S.Offered fs i sigs ∧
    h.sent <+: S.prologue i ++ [sigRequest sigs, completeRequest]
  queued : w.queued <+: deltasOf h.received
  completed : h.completed = true → w.queued = deltasOf h.received ∧ Done h.received
  at_pc : S.AfterAt fs i h w h.pc

/-- The part of `After` that does not look at files: what came in has been
passed on to the writer. -/
structure Relays (fs : Fs) (i : Side) (h : Host) (w : Writer) : Prop where
  writers : h.writers = [w]
  got : S.prologue i.other <+: h.received
  sent : ∃ sigs, S.Offered fs i sigs ∧
    h.sent <+: S.prologue i ++ [sigRequest sigs, completeRequest]
  queued : w.queued <+: deltasOf h.received
  completed : h.completed = true → w.queued = deltasOf h.received ∧ Done h.received
  at_pc : S.AfterAt fs i h w h.pc

/-- The receiver, at any point. -/
def ReceiverInv (fs : Fs) (i : Side) (h : Host) : Prop :=
  S.Before fs i h ∨ ∃ w, S.After fs i h w

variable {S} {fs : Fs} {i : Side} {h h' : Host} {e : HostEvent} {w : Writer}

theorem offered_nil : S.Offered fs i ⟨(S.config i).blockSize, []⟩ := .inl rfl

theorem receiverInv_init (fs : Side → Fs) (i : Side) :
    S.ReceiverInv (fs i) i (Setup.init fs i) := by
  rcases i with - | - <;>
    exact .inl ⟨rfl, rfl, rfl, rfl, ⟨_, offered_nil, List.nil_prefix⟩, rfl, rfl, rfl⟩

/-- What the receiver sends: the prologue, signatures, `Complete`. -/
theorem ReceiverInv.sent (hinv : S.ReceiverInv fs i h) : ∃ sigs, S.Offered fs i sigs ∧
    h.sent <+: S.prologue i ++ [sigRequest sigs, completeRequest] := by
  rcases hinv with hbefore | ⟨w, hafter⟩
  · obtain ⟨sigs, hsigs, hpre⟩ := hbefore.sent
    exact ⟨sigs, hsigs, hpre.trans ⟨[completeRequest], by simp⟩⟩
  · exact hafter.sent

/-- A failure at an operation that sends nothing comes by itself. -/
theorem faulty_of_fail (hfail : e = .fail → h.pc.isSending = true ∨ S.Faulty i)
    (he : e = .fail) (hpc : h.pc.isSending = false) : S.Faulty i :=
  (hfail he).resolve_left (by simp [hpc])

/-- A read of the receiver's file that gives its blocks. -/
theorem generate_of_reads {read : PathBuf → Except Failure Bytes}
    {r : BlockSignatures × BlockCache} (hreg : S.Regular) (hfs : h.fs = fs) (he : h.Reads e read)
    (hgen : generateBlocksSignatures S.crates (S.config i) read S.target = .ok r) :
    S.signing fs i = .ok r := by
  rcases he with ⟨-, rfl⟩ | ⟨-, rfl⟩
  · rw [signing, ← hfs]
    exact hgen
  · rw [generateBlocksSignatures, hreg.getAbsolutePath i] at hgen
    cases hgen

/-- A read of the receiver's file that ends in an error. -/
theorem unread_of_reads {read : PathBuf → Except Failure Bytes} {err : HarmonicError}
    (hfs : h.fs = fs) (he : h.Reads e read) (hpc : h.pc.isSending = false)
    (hfail : e = .fail → h.pc.isSending = true ∨ S.Faulty i)
    (hgen : generateBlocksSignatures S.crates (S.config i) read S.target = .error (.err err)) :
    S.Unread fs i := by
  rcases he with ⟨-, rfl⟩ | ⟨hf, -⟩
  · rw [hfs] at hgen
    exact .inr (.inl ⟨err, hgen⟩)
  · exact .inr (.inr (faulty_of_fail hfail hf hpc))

/-- With the writer just spawned there is nothing to pass on yet. -/
theorem Relays.of_spawn {path : PathBuf} {cache : BlockCache} {ts : Timestamp} {pc : Pc}
    (hwriters : h.writers = []) (hcompleted : h.completed = false)
    (hgot : h.received = S.prologue i.other)
    (hsent : h.sent = S.prologue i ∨ S.SigSent fs i h)
    (hpc : pc = .recv ∨ pc = .running [] .continued) :
    S.Relays fs i (h.spawnWriter path cache ts pc) (.spawn path cache ts) := by
  have hds : deltasOf h.received = [] := by
    rw [hgot]
    rcases i with - | - <;> rfl
  -- all that was received is the prologue, which has neither deltas nor `Complete`
  have hnc : completeRequest ∉ h.received := by
    rw [hgot]
    rcases i with - | -
    · exact List.not_mem_nil
    · intro hmem
      have hreq := List.mem_singleton.mp hmem
      simp [completeRequest, actionRequest, Payload.request] at hreq
  refine ⟨by simp [Host.spawnWriter, hwriters], hgot ▸ List.prefix_rfl, ?_, List.nil_prefix, ?_, ?_⟩
  · rcases hsent with hs | ⟨sigs, hsigs, hs⟩
    · exact ⟨_, offered_nil, hs ▸ List.prefix_append _ _⟩
    · exact ⟨sigs, hsigs, hs ▸ ⟨[completeRequest], by simp⟩⟩
  · intro hc
    rw [show (h.spawnWriter path cache ts pc).completed = h.completed from rfl, hcompleted] at hc
    cases hc
  · have htx : (h.spawnWriter path cache ts pc).writerTx = some 0 := by
      simp [Host.spawnWriter, hwriters]
    rcases hpc with rfl | rfl
    · exact ⟨htx, hcompleted, hds.symm, hnc, hsent⟩
    · exact ⟨htx, hcompleted, .inl ⟨rfl, hnc, hsent, .inr ⟨rfl, hds.symm⟩⟩⟩

theorem After.relays (h' : S.After fs i h w) : S.Relays fs i h w :=
  ⟨h'.writers, h'.got, h'.sent, h'.queued, h'.completed, h'.at_pc⟩

theorem Relays.after (hrel : S.Relays fs i h w) (hpath : w.path = S.abs i)
    (hcached : S.Cached fs i w.cache) (hwriter : w.Inv fs h.fs) : S.After fs i h w :=
  ⟨hrel.writers, hpath, hcached, hwriter, hrel.got, hrel.sent, hrel.queued, hrel.completed,
    hrel.at_pc⟩

/-- Spawning the writer puts the receiver into `After`. -/
theorem After.of_spawn {path : PathBuf} {cache : BlockCache} {ts : Timestamp} {pc : Pc}
    (hfs : h.fs = fs) (hwriters : h.writers = []) (hcompleted : h.completed = false)
    (hpath : path = S.abs i) (hcache : S.Cached fs i cache)
    (hgot : h.received = S.prologue i.other)
    (hsent : h.sent = S.prologue i ∨ S.SigSent fs i h)
    (hpc : pc = .recv ∨ pc = .running [] .continued) :
    S.After fs i (h.spawnWriter path cache ts pc) (.spawn path cache ts) := by
  refine (Relays.of_spawn hwriters hcompleted hgot hsent hpc).after hpath hcache ?_
  rw [← hfs]
  exact Writer.inv_spawn _ _ _ _

/-! ### Steps -/

/-- What the encoder answers with: deltas and `Complete`. -/
theorem mem_answer {fs' : Fs} {j : Side} {sigs : BlockSignatures} {m : SyncRequest}
    (hm : m ∈ S.answer fs' j sigs) : (∃ d : Delta, m = d.request) ∨ m = completeRequest := by
  obtain ⟨ds, hds⟩ := sendDelta_messages S.crates sigs (fs'.readFile (S.abs j))
  have hclosing : ∀ x : Ending, m ∈ x.closing → m = completeRequest := by
    intro x hx
    cases x with
    | ok => exact List.mem_singleton.mp hx
    | err | panic | running => cases hx
  rw [answer, encoding, hds, List.mem_append, List.mem_append, List.mem_map] at hm
  rcases hm with (⟨d, -, rfl⟩ | hm) | hm
  · exact .inl ⟨d, rfl⟩
  · exact .inr (hclosing _ hm)
  · exact .inr (hclosing _ hm)

/-- What the encoder may have sent when its next message `m` is taken. -/
def PeerSends (S : Setup) (fs' : Fs) (i : Side) (h : Host) (m : SyncRequest) : Prop :=
  h.received ++ [m] <+: S.prologue i.other ∨ ∃ sigs, sigRequest sigs ∈ h.sent ∧
    h.received ++ [m] <+: S.prologue i.other ++ S.answer fs' i.other sigs

/-- The first message that a server takes is the action. -/
theorem PeerSends.eq_action {fs' : Fs} {m : SyncRequest} (hpeer : S.PeerSends fs' .server h m)
    (hs : h.sent = []) (hr : h.received = []) : m = S.actionRequest := by
  obtain hpre | ⟨sigs, hmem, -⟩ := hpeer
  · rw [hr] at hpre
    exact (List.cons_prefix_cons.mp hpre).1
  · rw [hs] at hmem
    cases hmem

/-- The handler's upload branch signs the file and asks for a writer. -/
theorem Before.handle {read : PathBuf → Except Failure Bytes} (hreg : S.Regular)
    (henc : S.Encodes .client) (hinv : S.Before fs .server h) (he : h.Reads e read)
    (hs : h.sent = []) (hr : h.received = [S.actionRequest]) :
    S.Before fs .server
      (h.handle S.crates (S.config .server) read (.fileAction S.action)) := by
  have hrun : handleSyncPayload S.crates (S.config .server) read h.filePath h.writerTx.isSome
      (.fileAction S.action) = startUpload S.crates (S.config .server) read S.target
        (S.action.timestampLatestModified.getD default) := handleSyncPayload_upload henc
  rw [Host.handle, hrun]
  refine ⟨hinv.fs_eq, hinv.writers, hinv.writerTx, hinv.completed, hinv.sent, rfl, hr, ?_⟩
  unfold startUpload
  rcases hgen : generateBlocksSignatures S.crates (S.config .server) read S.target with
    (err | -) | ⟨sigs, cache⟩
  · exact .inr ⟨rfl, by simp, by simp⟩
  · exact .inr ⟨rfl, by simp, by simp⟩
  · rw [hreg.getAbsolutePath .server]
    exact .inl ⟨sigs, cache, _, generate_of_reads hreg hinv.fs_eq he hgen, rfl, .inl ⟨rfl, hs⟩⟩

/-- **Step, up to the spawn.** -/
theorem Before.move {fs' : Fs} (hreg : S.Regular) (henc : S.Encodes i.other)
    (hinv : S.Before fs i h) (hm : S.SideMove i h e h')
    (hfail : e = .fail → h.pc.isSending = true ∨ S.Faulty i)
    (hpeer : ∀ m, e = .recv m → S.PeerSends fs' i h m) : S.ReceiverInv fs i h' := by
  have ⟨hfs, hwriters, hwtx, hcompleted, hsent, hat⟩ := hinv
  cases hm with
  | connect hpc =>
    simp only [hpc, BeforeAt] at hat
    exact .inl ⟨hfs, hwriters, hwtx, hcompleted, hsent, hat⟩
  | refused hpc => exact .inl ⟨hfs, hwriters, rfl, hcompleted, hsent, trivial⟩
  | sendAction hpc =>
    simp only [hpc, BeforeAt] at hat
    obtain ⟨rfl, hs, hr⟩ := hat
    have hsent' : h.sent ++ [(Payload.fileAction S.action).request] = S.prologue .client := by
      rw [hs]
      rfl
    rw [if_pos (show S.action.direction = TransferDirection.download.toI32 from henc)]
    exact .inl ⟨hfs, hwriters, hwtx, hcompleted,
      ⟨_, offered_nil, hsent'.symm ▸ List.prefix_append _ _⟩, rfl, hr, rfl, hsent'⟩
  | sigCheck ev exist hpc he =>
    simp only [hpc, BeforeAt] at hat
    refine .inl ⟨hfs, hwriters, hwtx, hcompleted, hsent, ?_⟩
    rcases exist with - | -
    · exact ⟨hat.1, hat.2.1, hat.2.2.1, hat.2.2.2, offered_nil⟩
    · exact hat
  | sigRead ev read sigs cache hpc he hgen =>
    simp only [hpc, BeforeAt] at hat
    obtain ⟨hi, hr, hpath, hs⟩ := hat
    rw [hpath] at hgen
    exact .inl ⟨hfs, hwriters, hwtx, hcompleted, hsent, hi, hr, hpath, hs,
      .inr ⟨cache, generate_of_reads hreg hfs he hgen⟩⟩
  | sigReadErr ev read err hpc he hgen =>
    simp only [hpc, BeforeAt] at hat
    exact .inl ⟨hfs, hwriters, hwtx, hcompleted, hsent, hat.1, hat.2.1, hat.2.2.1,
      .inl hat.2.2.2⟩
  | readPanic ev read hpc he => exact .inl ⟨hfs, hwriters, rfl, hcompleted, hsent, trivial⟩
  | sigSend sigs hpc =>
    simp only [hpc, BeforeAt] at hat
    obtain ⟨hi, hr, hpath, hs, hoff⟩ := hat
    have hsent' : (h.send (Payload.signatures sigs).request .writerCheck).sent =
        S.prologue i ++ [sigRequest sigs] := by
      rw [Host.send, hs]
      rfl
    exact .inl ⟨hfs, hwriters, hwtx, hcompleted, ⟨sigs, hoff, hsent' ▸ List.prefix_rfl⟩,
      hi, hr, hpath, .inr ⟨sigs, hoff, hsent'⟩⟩
  | sigLost sigs hpc =>
    simp only [hpc, BeforeAt] at hat
    exact .inl ⟨hfs, hwriters, hwtx, hcompleted, hsent, hat.1, hat.2.1, hat.2.2.1,
      .inl hat.2.2.2.1⟩
  | writerCheck ev exist hpc he =>
    simp only [hpc, BeforeAt] at hat
    refine .inl ⟨hfs, hwriters, hwtx, hcompleted, hsent, ?_⟩
    obtain ⟨rfl, hr, hpath, hs⟩ := hat
    rcases exist with - | -
    · refine ⟨rfl, hr, hs, .inr ⟨rfl, ?_⟩⟩
      rcases he with ⟨-, hno⟩ | ⟨hf, -⟩
      · rw [hfs] at hno
        exact .inl hno.symm
      · exact .inr (.inr (faulty_of_fail hfail hf (by rw [hpc]; rfl)))
    · exact ⟨rfl, hr, hpath, hs⟩
  | writerRead ev read sigs cache hpc he hgen =>
    simp only [hpc, BeforeAt] at hat
    obtain ⟨hi, hr, hpath, hs⟩ := hat
    rw [hpath] at hgen
    exact .inl ⟨hfs, hwriters, hwtx, hcompleted, hsent, hi, hr, hs,
      .inl ⟨sigs, generate_of_reads hreg hfs he hgen⟩⟩
  | writerReadErr ev read err hpc he hgen =>
    simp only [hpc, BeforeAt] at hat
    obtain ⟨rfl, hr, hpath, hs⟩ := hat
    rw [hpath] at hgen
    exact .inl ⟨hfs, hwriters, hwtx, hcompleted, hsent, rfl, hr, hs,
      .inr ⟨rfl, unread_of_reads hfs he (by rw [hpc]; rfl) hfail hgen⟩⟩
  -- from here on there is a writer
  | writerSpawn cache hpc =>
    simp only [hpc, BeforeAt] at hat
    obtain ⟨rfl, hr, hs, hcache⟩ := hat
    exact .inr ⟨_, .of_spawn hfs hwriters hcompleted rfl hcache hr hs (.inl rfl)⟩
  -- the server handles the action it was sent
  | handle ev read payload hpc he =>
    simp only [hpc, BeforeAt] at hat
    obtain ⟨rfl, rfl, hs, hr⟩ := hat
    exact .inl (hinv.handle hreg henc he hs hr)
  | send m es r hpc =>
    simp only [hpc, BeforeAt] at hat
    obtain ⟨rfl, hr, ⟨sigs, cache, ts, hsign, rfl, ⟨hes, hs⟩ | ⟨hes, -⟩⟩ | ⟨hes, -⟩⟩ := hat
    · obtain ⟨hm', rfl⟩ := List.cons.inj hes
      obtain rfl := Effect.send.inj hm'
      have hsent' : h.sent ++ [sigRequest sigs] = S.prologue .server ++ [sigRequest sigs] := by
        rw [hs]
        rfl
      have hoff : S.Offered fs .server sigs := .inr ⟨cache, hsign⟩
      exact .inl ⟨hfs, hwriters, hwtx, hcompleted, ⟨sigs, hoff, hsent' ▸ List.prefix_rfl⟩, rfl,
        hr, .inl ⟨sigs, cache, ts, hsign, rfl, .inr ⟨rfl, sigs, hoff, hsent'⟩⟩⟩
    · cases hes
    · cases hes
  | sendLost m es r hpc => exact .inl ⟨hfs, hwriters, rfl, hcompleted, hsent, trivial⟩
  | forwardNowhere d es r hpc hw =>
    simp only [hpc, BeforeAt] at hat
    obtain ⟨-, -, ⟨sigs, cache, ts, -, -, ⟨hes, -⟩ | ⟨hes, -⟩⟩ | ⟨hes, -⟩⟩ := hat <;> cases hes
  | forwardLost d es r k w hpc hk => rw [hwtx] at hk; cases hk
  | forward d es r k w hpc hk => rw [hwtx] at hk; cases hk
  | spawn path cache ts es r hpc =>
    simp only [hpc, BeforeAt] at hat
    obtain ⟨rfl, hr, ⟨sigs, cache', ts', hsign, rfl, ⟨hes, -⟩ | ⟨hes, hs⟩⟩ | ⟨hes, -⟩⟩ := hat
    · cases hes
    · cases hes
      exact .inr ⟨_, .of_spawn hfs hwriters hcompleted rfl (.inl ⟨sigs, hsign⟩) hr (.inr hs)
        (.inr rfl)⟩
    · cases hes
  | finishContinued hpc =>
    simp only [hpc, BeforeAt] at hat
    obtain ⟨-, -, ⟨sigs, cache, ts, -, -, ⟨hes, -⟩ | ⟨hes, -⟩⟩ | ⟨-, hr, -⟩⟩ := hat
    · cases hes
    · cases hes
    · exact absurd rfl hr
  | finishCompleted hpc =>
    simp only [hpc, BeforeAt] at hat
    obtain ⟨-, -, ⟨sigs, cache, ts, -, hr, -⟩ | ⟨-, -, hr⟩⟩ := hat
    · cases hr
    · exact absurd rfl hr
  | finishErr err hpc => exact .inl ⟨hfs, hwriters, rfl, hcompleted, hsent, trivial⟩
  | finishPanic hpc => exact .inl ⟨hfs, hwriters, rfl, hcompleted, hsent, trivial⟩
  | finishRunning hpc => exact .inl ⟨hfs, hwriters, hwtx, hcompleted, hsent, hat⟩
  | wake hpc => exact .inl ⟨hfs, hwriters, rfl, hcompleted, hsent, trivial⟩
  | recv m payload hpc hpay =>
    simp only [hpc, BeforeAt] at hat
    obtain ⟨rfl, hs, hr⟩ := hat
    -- the first message can only be the action
    obtain rfl := (hpeer m rfl).eq_action hs hr
    obtain rfl := Option.some.inj hpay
    exact .inl ⟨hfs, hwriters, hwtx, hcompleted, hsent, rfl, rfl, hs, by rw [hr]; rfl⟩
  | recvNothing m hpc hpay =>
    simp only [hpc, BeforeAt] at hat
    obtain ⟨rfl, hs, hr⟩ := hat
    obtain rfl := (hpeer m rfl).eq_action hs hr
    cases hpay
  | recvEnd hpc => exact .inl ⟨hfs, hwriters, hwtx, hcompleted, hsent, trivial⟩
  | recvErr hpc => exact .inl ⟨hfs, hwriters, rfl, hcompleted, hsent, trivial⟩
  | writer k ev w w' fs₁ hw => rw [hwriters] at hw; cases hw

/-- Once the prologue is in, the next message is a delta or `Complete`, and
signatures must have gone out for it. -/
theorem PeerSends.next {fs' : Fs} {m : SyncRequest} (hpeer : S.PeerSends fs' i h m)
    (hgot : S.prologue i.other <+: h.received)
    (hsent : h.sent = S.prologue i ∨ S.SigSent fs i h) :
    S.SigSent fs i h ∧ ((∃ d : Delta, m = d.request) ∨ m = completeRequest) := by
  obtain hpre | ⟨sigs, hmem, hpre⟩ := hpeer
  · have h₁ := hpre.length_le
    have h₂ := hgot.length_le
    simp only [List.length_append, List.length_singleton] at h₁
    omega
  · refine ⟨hsent.resolve_left fun hs => ?_, ?_⟩
    · rw [hs] at hmem
      rcases i with - | -
      · have hreq := List.mem_singleton.mp hmem
        simp [sigRequest, actionRequest, Payload.request] at hreq
      · cases hmem
    · obtain ⟨rest, hrest⟩ := hgot
      rw [← hrest, List.append_assoc, List.prefix_append_right_inj] at hpre
      exact mem_answer (hpre.subset (by simp))

/-- A delta or `Complete` comes in. -/
theorem Relays.recv {m : SyncRequest} {payload : Payload} (hinv : S.Relays fs i h w)
    (hpc : h.pc = .recv) (hpay : m.payload = some payload) (hsig : S.SigSent fs i h)
    (hnext : (∃ d : Delta, m = d.request) ∨ m = completeRequest) :
    S.Relays fs i { h with received := h.received ++ [m], pc := .handling payload } w := by
  have hat := hinv.at_pc
  simp only [hpc, AfterAt] at hat
  obtain ⟨htx, hc, hq, hnc, hs⟩ := hat
  refine ⟨hinv.writers, hinv.got.trans (List.prefix_append _ _), hinv.sent, ?_, ?_, htx, hc, hs, ?_⟩
  · show w.queued <+: deltasOf (h.received ++ [m])
    rw [deltasOf_append]
    exact hinv.queued.trans (List.prefix_append _ _)
  · exact fun hc' => absurd (hc'.symm.trans hc) (by decide)
  · -- a delta, or the end of the deltas
    obtain ⟨d, rfl⟩ | rfl := hnext
    · obtain rfl := Option.some.inj hpay
      refine .inl ⟨d, rfl, ?_, ?_⟩
      · rw [hq, deltasOf_append]
        rfl
      · intro hmem
        rcases List.mem_append.mp hmem with hmem | hmem
        · exact hnc hmem
        · have hreq := List.mem_singleton.mp hmem
          simp [completeRequest, Delta.request, Payload.request] at hreq
    · obtain rfl := Option.some.inj hpay
      refine .inr ⟨rfl, ?_, ⟨h.received, rfl, hnc⟩, hsig⟩
      rw [hq, deltasOf_append]
      exact (List.append_nil _).symm

/-- The writer takes a step. -/
theorem Relays.writer_move {closed : Bool} {ev : WriterEvent} {w' : Writer} {fs₁ : Fs}
    (hinv : S.Relays fs i h w) (hmove : Writer.Move closed h.fs w ev fs₁ w') :
    S.Relays fs i { h with fs := fs₁, writers := h.writers.set 0 w' } w' := by
  obtain ⟨-, -, hqueued⟩ := hmove.fixed
  refine ⟨?_, hinv.got, hinv.sent, hqueued ▸ hinv.queued, ?_, ?_⟩
  · simp [hinv.writers]
  · rw [hqueued]
    exact hinv.completed
  · -- the task's own point speaks of the writer through what was queued only
    have hat := hinv.at_pc
    show S.AfterAt fs i _ w' h.pc
    rcases hpc : h.pc <;> simp only [hpc, AfterAt] at hat ⊢ <;>
      first | exact hat | (rw [hqueued]; exact hat)

/-- What a step of the receiver does to its writer. -/
inductive Passed (fs : Fs) (w : Writer) (fs' : Fs) : Writer → Prop
  | same (hfs : fs' = fs) : Passed fs w fs' w
  | pushed (d : Delta) (hfs : fs' = fs) (hended : w.ended = false) :
      Passed fs w fs' { w with queued := w.queued ++ [d] }
  | moved (closed : Bool) (ev : WriterEvent) (w' : Writer)
      (hmove : Writer.Move closed fs w ev fs' w') : Passed fs w fs' w'

theorem Passed.fixed {fs' : Fs} {w' : Writer} (hp : Passed fs w fs' w') :
    w'.path = w.path ∧ w'.cache = w.cache := by
  cases hp with
  | same | pushed => exact ⟨rfl, rfl⟩
  | moved closed ev w' hmove => exact ⟨hmove.fixed.1, hmove.fixed.2.1⟩

/-- **Step, from the spawn on**, whatever stands on the disk. -/
theorem Relays.move {fs' : Fs} (hinv : S.Relays fs i h w) (hm : S.SideMove i h e h')
    (hpeer : ∀ m, e = .recv m → S.PeerSends fs' i h m) :
    ∃ w', S.Relays fs i h' w' ∧ Passed h.fs w h'.fs w' := by
  have ⟨hwriters, hgot, hsent, hqueued, hcompleted, hat⟩ := hinv
  cases hm with
  | handle ev read payload hpc he =>
    simp only [hpc, AfterAt] at hat
    obtain ⟨htx, hc, hs, ⟨d, rfl, hq, hnc⟩ | ⟨rfl, hq, hdone, hsig⟩⟩ := hat
    · have hrun : handleSyncPayload S.crates (S.config i) read h.filePath h.writerTx.isSome
          (.delta d) = ⟨h.filePath, [.forward d], .continued⟩ := by
        rw [htx]
        rfl
      rw [Host.handle, hrun]
      exact ⟨w, ⟨hwriters, hgot, hsent, hqueued, hcompleted, htx, hc,
        .inl ⟨rfl, hnc, hs, .inl ⟨d, rfl, hq⟩⟩⟩, .same rfl⟩
    · exact ⟨w, ⟨hwriters, hgot, hsent, hqueued, hcompleted, htx, hc,
        .inr ⟨rfl, hq, hdone, .inl ⟨rfl, hsig⟩⟩⟩, .same rfl⟩
  | send m es r hpc =>
    simp only [hpc, AfterAt] at hat
    obtain ⟨htx, hc, ⟨-, -, -, ⟨d, hes, -⟩ | ⟨hes, -⟩⟩ | ⟨rfl, hq, hdone, ⟨hes, hsig⟩ | hes⟩⟩ := hat
    · cases hes
    · cases hes
    · obtain ⟨hm', rfl⟩ := List.cons.inj hes
      obtain rfl := Effect.send.inj hm'
      obtain ⟨sigs, hoff, hs⟩ := hsig
      refine ⟨w, ⟨hwriters, hgot, ⟨sigs, hoff, ?_⟩, hqueued, hcompleted, htx, hc,
        .inr ⟨rfl, hq, hdone, .inr rfl⟩⟩, .same rfl⟩
      show h.sent ++ [completeRequest] <+: _
      rw [hs, List.append_assoc]
      exact List.prefix_rfl
    · cases hes
  | sendLost m es r hpc =>
    exact ⟨w, ⟨hwriters, hgot, hsent, hqueued, hcompleted, trivial⟩, .same rfl⟩
  | forwardNowhere d es r hpc hw =>
    simp only [hpc, AfterAt] at hat
    rw [hw] at hat
    cases hat.1
  | forwardLost d es r k w' hpc hk hw hended =>
    exact ⟨w, ⟨hwriters, hgot, hsent, hqueued, hcompleted, trivial⟩, .same rfl⟩
  | forward d es r k w' hpc hk hw hended hcap =>
    simp only [hpc, AfterAt] at hat
    obtain ⟨htx, hc, ⟨rfl, hnc, hs, ⟨d', hes, hq⟩ | ⟨hes, -⟩⟩ | ⟨-, -, -, ⟨hes, -⟩ | hes⟩⟩ := hat
    · obtain ⟨hd, rfl⟩ := List.cons.inj hes
      obtain rfl := Effect.forward.inj hd
      obtain rfl : k = 0 := Option.some.inj (hk.symm.trans htx)
      obtain rfl : w' = w := by simpa [hwriters] using hw.symm
      refine ⟨{ w' with queued := w'.queued ++ [d] }, ⟨?_, hgot, hsent, hq ▸ List.prefix_rfl, ?_,
        htx, hc, .inl ⟨rfl, hnc, hs, .inr ⟨rfl, hq⟩⟩⟩, .pushed d rfl hended⟩
      · simp [hwriters]
      · intro hc'
        exact absurd (hc'.symm.trans hc) (by decide)
    all_goals cases hes
  | spawn path cache ts es r hpc =>
    simp only [hpc, AfterAt] at hat
    obtain ⟨-, -, ⟨-, -, -, ⟨d, hes, -⟩ | ⟨hes, -⟩⟩ | ⟨-, -, -, ⟨hes, -⟩ | hes⟩⟩ := hat <;>
      cases hes
  | finishContinued hpc =>
    simp only [hpc, AfterAt] at hat
    obtain ⟨htx, hc, ⟨-, hnc, hs, ⟨d, hes, -⟩ | ⟨-, hq⟩⟩ | ⟨hr, -⟩⟩ := hat
    · cases hes
    · exact ⟨w, ⟨hwriters, hgot, hsent, hqueued, hcompleted, htx, hc, hq,
        hnc, hs⟩, .same rfl⟩
    · cases hr
  | finishCompleted hpc =>
    simp only [hpc, AfterAt] at hat
    obtain ⟨-, -, ⟨hr, -⟩ | ⟨-, hq, hdone, -⟩⟩ := hat
    · cases hr
    · exact ⟨w, ⟨hwriters, hgot, hsent, hqueued, fun _ => ⟨hq, hdone⟩,
        trivial⟩, .same rfl⟩
  | finishErr err hpc =>
    exact ⟨w, ⟨hwriters, hgot, hsent, hqueued, hcompleted, trivial⟩, .same rfl⟩
  | finishPanic hpc =>
    exact ⟨w, ⟨hwriters, hgot, hsent, hqueued, hcompleted, trivial⟩, .same rfl⟩
  | finishRunning hpc =>
    exact ⟨w, ⟨hwriters, hgot, hsent, hqueued, hcompleted, hat⟩, .same rfl⟩
  | wake hpc =>
    exact ⟨w, ⟨hwriters, hgot, hsent, hqueued, hcompleted, trivial⟩, .same rfl⟩
  | recv m payload hpc hpay =>
    simp only [hpc, AfterAt] at hat
    obtain ⟨hsig, hnext⟩ := (hpeer m rfl).next hgot hat.2.2.2.2
    exact ⟨w, hinv.recv hpc hpay hsig hnext, .same rfl⟩
  | recvNothing m hpc hpay =>
    simp only [hpc, AfterAt] at hat
    obtain ⟨-, ⟨d, rfl⟩ | rfl⟩ := (hpeer m rfl).next hgot hat.2.2.2.2 <;> cases hpay
  | recvEnd hpc =>
    exact ⟨w, ⟨hwriters, hgot, hsent, hqueued, hcompleted, trivial⟩, .same rfl⟩
  | recvErr hpc =>
    exact ⟨w, ⟨hwriters, hgot, hsent, hqueued, hcompleted, trivial⟩, .same rfl⟩
  | writer k ev w₁ w' fs₁ hw hstep =>
    obtain ⟨rfl, rfl⟩ : k = 0 ∧ w₁ = w := by
      rw [hwriters] at hw
      rcases k with - | k
      · exact ⟨rfl, (Option.some.inj hw).symm⟩
      · cases hw
    have hmove := Writer.move_of_step hstep
    exact ⟨w', hinv.writer_move hmove, .moved _ ev w' hmove⟩
  -- the steps of the client before its writer is there
  | refused hpc => rcases hpc with hpc | hpc <;> simp only [hpc, AfterAt] at hat
  | readPanic ev read hpc he => rcases hpc with hpc | hpc <;> simp only [hpc, AfterAt] at hat
  | connect hpc => simp only [hpc, AfterAt] at hat
  | sendAction hpc => simp only [hpc, AfterAt] at hat
  | sigCheck ev exist hpc => simp only [hpc, AfterAt] at hat
  | sigRead ev read sigs cache hpc => simp only [hpc, AfterAt] at hat
  | sigReadErr ev read err hpc => simp only [hpc, AfterAt] at hat
  | sigSend sigs hpc => simp only [hpc, AfterAt] at hat
  | sigLost sigs hpc => simp only [hpc, AfterAt] at hat
  | writerCheck ev exist hpc => simp only [hpc, AfterAt] at hat
  | writerRead ev read sigs cache hpc => simp only [hpc, AfterAt] at hat
  | writerReadErr ev read err hpc => simp only [hpc, AfterAt] at hat
  | writerSpawn cache hpc => simp only [hpc, AfterAt] at hat

/-- **Step, from the spawn on.** -/
theorem After.move {fs' : Fs} (hreg : S.Regular) (hinv : S.After fs i h w)
    (hm : S.SideMove i h e h') (hpeer : ∀ m, e = .recv m → S.PeerSends fs' i h m) :
    ∃ w', S.After fs i h' w' := by
  obtain ⟨w', hrel, hpass⟩ := hinv.relays.move hm hpeer
  obtain ⟨hpath, hcache⟩ := hpass.fixed
  refine ⟨w', hrel.after (hpath.trans hinv.path) (hcache ▸ hinv.cached) ?_⟩
  obtain ⟨n, hn⟩ := hreg.fileName i
  have hne : w.tmp ≠ w.dest := resolve_tmpFile_ne (hinv.path ▸ hn)
  cases hpass with
  | same hfs =>
    rw [hfs]
    exact hinv.writer
  | pushed d hfs hended =>
    rw [hfs]
    exact hinv.writer.push hended d
  | moved closed ev w' hmove => exact hinv.writer.move hne hmove

/-- **Step.** -/
theorem ReceiverInv.move (fs' : Fs) (hreg : S.Regular) (henc : S.Encodes i.other)
    (hinv : S.ReceiverInv fs i h) (hm : S.SideMove i h e h')
    (hfail : e = .fail → h.pc.isSending = true ∨ S.Faulty i)
    (hpeer : ∀ m, e = .recv m → S.PeerSends fs' i h m) : S.ReceiverInv fs i h' := by
  rcases hinv with hbefore | ⟨w, hafter⟩
  · exact hbefore.move hreg henc hm hfail hpeer
  · exact .inr (hafter.move hreg hm hpeer)

end Setup

end Harmonic
