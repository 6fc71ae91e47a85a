/-
Harmonic/Encoder.lean

The side that has the content: the client of an upload, the server of a
download.

Both do the same once the action is out: wait for signatures, answer them with
the deltas of the file, wait for `Complete`, echo it.  `EncoderAt` says for
each point of the task what has been sent and received there, and
`EncoderInv.move` that every move keeps it, as long as the peer sends one
message with signatures and then `Complete`.
-/
import Harmonic.Session

namespace Harmonic

open Storage (Failure)

namespace Setup

variable (S : Setup)

/-! ### The exchange of one path -/

/-- The path of the action. -/
def target : PathBuf := .ofString S.action.path

/-- Where a side keeps the file. -/
def abs (i : Side) : PathBuf := (S.config i).syncPath.join S.target

/-- The message that opens the exchange. -/
def actionRequest : SyncRequest := (Payload.fileAction S.action).request

/-- What a side sends before anything of the transfer. -/
def prologue : Side → List SyncRequest
  | .client => [S.actionRequest]
  | .server => []

/-- Signatures as a message. -/
def sigRequest (sigs : BlockSignatures) : SyncRequest := (Payload.signatures sigs).request

/-- Side `i` has the content that is transferred. -/
def Encodes (i : Side) : Prop :=
  S.action.direction = match i with
    | .client => TransferDirection.upload.toI32
    | .server => TransferDirection.download.toI32

/-- The path is that of a file below the root, and `clean` is lexical. -/
structure Regular : Prop where
  plain : S.target.Plain
  clean : CleanSpec S.crates.clean

variable {S}

/-- A plain path passes the check, and is joined as it is. -/
theorem Regular.getAbsolutePath (hreg : S.Regular) (i : Side) :
    getAbsolutePath S.crates S.target (S.config i).syncPath = .ok (S.abs i) := by
  have hplain := hreg.plain
  have hclean : S.crates.clean S.target = S.target :=
    (hreg.clean S.target).trans hplain.lexicalClean_eq
  simp only [Harmonic.getAbsolutePath, hplain.isAbsolute, hclean, hplain.not_startsWith_dotDot,
    startsWith_join hplain.isAbsolute, Bool.false_eq_true, if_false, Bool.not_true]
  rfl

/-- The joined path ends in a file name. -/
theorem Regular.fileName (hreg : S.Regular) (i : Side) : ∃ n, (S.abs i).fileName = some n := by
  obtain ⟨ns, hne, htarget⟩ := hreg.plain
  exact ⟨_, fileName_join hreg.plain.isAbsolute (congrArg PathBuf.comps htarget) hne⟩

variable (S)

/-- The answer of side `i` to signatures, with its file system as it is. -/
def encoding (fs : Fs) (i : Side) (sigs : BlockSignatures) : Sending :=
  sendDelta S.crates sigs (fs.readFile (S.abs i))

/-- What is sent in answer to signatures, the echo of `Complete` included. -/
def answer (fs : Fs) (i : Side) (sigs : BlockSignatures) : List SyncRequest :=
  (S.encoding fs i sigs).messages ++ (S.encoding fs i sigs).ending.closing

/-! ### The role -/

/-- What holds when the encoder is at a point of its task. -/
def EncoderAt (fs : Fs) (i : Side) (h : Host) : Pc → Prop
  | .connect | .sendAction => i = .client ∧ h.sent = [] ∧ h.received = []
  | .recv =>
    (h.sent = S.prologue i ∧ h.received <+: S.prologue i.other ∧
      (h.received = S.prologue i.other → h.filePath = S.target)) ∨
    ∃ sigs, h.received = S.prologue i.other ++ [sigRequest sigs] ∧
      h.sent = S.prologue i ++ (S.encoding fs i sigs).messages ∧
      (S.encoding fs i sigs).ending = .ok
  | .handling p =>
    (p = .fileAction S.action ∧ i = .server ∧ h.sent = S.prologue i ∧
      h.received = S.prologue i.other) ∨
    (∃ sigs, p = .signatures sigs ∧ h.sent = S.prologue i ∧ h.filePath = S.target ∧
      h.received = S.prologue i.other ++ [sigRequest sigs]) ∨
    ∃ sigs, p = .complete true ∧ sigRequest sigs ∈ h.received ∧
      h.sent = S.prologue i ++ (S.encoding fs i sigs).messages ∧
      (S.encoding fs i sigs).ending = .ok
  | .running es r =>
    (es = [] ∧ r = .continued ∧ h.sent = S.prologue i ∧ h.received = S.prologue i.other ∧
      h.filePath = S.target) ∨
    (∃ sigs ms done, es = ms.map .send ∧ r = (S.encoding fs i sigs).ending.result ∧
      h.received = S.prologue i.other ++ [sigRequest sigs] ∧ h.sent = S.prologue i ++ done ∧
      done ++ ms = (S.encoding fs i sigs).messages) ∨
    (∃ err, es = [] ∧ r = .err err) ∨
    ∃ sigs, r = .completed ∧ sigRequest sigs ∈ h.received ∧
      (S.encoding fs i sigs).ending = .ok ∧
      (es = [.send completeRequest] ∧
        h.sent = S.prologue i ++ (S.encoding fs i sigs).messages ∨ es = [])
  | .sleeping | .ended _ => True
  | _ => False

/-- The encoder: nothing on its disk changes, and it sends its prologue, then
the answer to the signatures it got. -/
structure EncoderInv (fs : Fs) (i : Side) (h : Host) : Prop where
  fs_eq : h.fs = fs
  writers : h.writers = []
  writerTx : h.writerTx = none
  sent : h.sent <+: S.prologue i ∨
    ∃ sigs, sigRequest sigs ∈ h.received ∧ h.sent <+: S.prologue i ++ S.answer fs i sigs
  at_pc : S.EncoderAt fs i h h.pc

variable {S} {fs : Fs} {i : Side} {h h' : Host} {e : HostEvent}

theorem encoderInv_init (fs : Side → Fs) (i : Side) : S.EncoderInv (fs i) i (Setup.init fs i) := by
  rcases i with - | -
  · exact ⟨rfl, rfl, rfl, .inl List.nil_prefix, rfl, rfl, rfl⟩
  · refine ⟨rfl, rfl, rfl, .inl List.nil_prefix, .inl ⟨rfl, List.nil_prefix, fun h => ?_⟩⟩
    cases h

/-- The log of received messages only grows. -/
theorem EncoderInv.sent_of_received (hsent : h.sent <+: S.prologue i ∨
      ∃ sigs, sigRequest sigs ∈ h.received ∧ h.sent <+: S.prologue i ++ S.answer fs i sigs)
    (ms : List SyncRequest) : h.sent <+: S.prologue i ∨
      ∃ sigs, sigRequest sigs ∈ h.received ++ ms ∧
        h.sent <+: S.prologue i ++ S.answer fs i sigs := by
  rcases hsent with hpre | ⟨sigs, hmem, hpre⟩
  · exact .inl hpre
  · exact .inr ⟨sigs, List.mem_append_left _ hmem, hpre⟩

/-- What comes next on the stream towards the encoder. -/
theorem next_of_prefix {got ms : List SyncRequest} {m a b : SyncRequest}
    (h : got ++ ms ++ [m] <+: got ++ [a, b]) : ms = [] ∧ m = a ∨ ms = [a] ∧ m = b := by
  rw [List.append_assoc, List.prefix_append_right_inj] at h
  rcases ms with - | ⟨x, - | ⟨y, ms⟩⟩
  · left
    simpa using h
  · right
    simpa [List.cons_prefix_cons] using h
  · have := h.length_le
    simp at this

/-- **Step.**  Every move keeps the encoder's invariant, if what it takes off
the stream follows the script of its peer: prologue, signatures, `Complete`. -/
theorem EncoderInv.move (hreg : S.Regular) (henc : S.Encodes i) (hinv : S.EncoderInv fs i h)
    (hm : S.SideMove i h e h')
    (hpeer : ∀ m, e = .recv m → ∃ sigs,
      h.received ++ [m] <+: S.prologue i.other ++ [sigRequest sigs, completeRequest]) :
    S.EncoderInv fs i h' := by
  obtain ⟨hfs, hwriters, hwtx, hsent, hat⟩ := hinv
  have habs := hreg.getAbsolutePath i
  cases hm with
  | connect hpc =>
    simp only [hpc, EncoderAt] at hat
    exact ⟨hfs, hwriters, hwtx, hsent, hat⟩
  | refused hpc => exact ⟨hfs, hwriters, rfl, hsent, trivial⟩
  | sendAction hpc =>
    simp only [hpc, EncoderAt] at hat
    obtain ⟨rfl, hs, hr⟩ := hat
    have hdir : S.action.direction ≠ TransferDirection.download.toI32 := by
      rw [henc]
      decide
    have hsent' : h.sent ++ [(Payload.fileAction S.action).request] = S.prologue .client := by
      rw [hs]
      rfl
    rw [if_neg hdir]
    refine ⟨hfs, hwriters, hwtx, .inl (hsent' ▸ List.prefix_rfl), .inl ⟨hsent', ?_, fun _ => rfl⟩⟩
    show h.received <+: _
    rw [hr]
    exact List.nil_prefix
  | handle ev read payload hpc he =>
    simp only [hpc, EncoderAt] at hat
    rcases hat with ⟨rfl, rfl, hs, hr⟩ | ⟨sigs, rfl, hs, hpath, hr⟩ | ⟨sigs, rfl, hr, hs, hend⟩
    · -- the action of a download
      have hrun : handleSyncPayload S.crates (S.config .server) read h.filePath
          h.writerTx.isSome (.fileAction S.action) = ⟨S.target, [], .continued⟩ :=
        if_pos henc
      rw [Host.handle, hrun]
      exact ⟨hfs, hwriters, hwtx, hsent, .inl ⟨rfl, rfl, hs, hr, rfl⟩⟩
    · -- signatures: the file is read here
      have hrun : handleSyncPayload S.crates (S.config i) read h.filePath h.writerTx.isSome
          (.signatures sigs) = ⟨S.target,
            (sendDelta S.crates sigs (read (S.abs i))).messages.map .send,
            (sendDelta S.crates sigs (read (S.abs i))).ending.result⟩ := by
        simp only [handleSyncPayload, hpath, habs]
      rw [Host.handle, hrun]
      refine ⟨hfs, hwriters, hwtx, hsent, ?_⟩
      rcases he with ⟨-, rfl⟩ | ⟨-, rfl⟩
      · rw [hfs]
        exact .inr (.inl ⟨sigs, _, [], rfl, rfl, hr, by simpa using hs, rfl⟩)
      · exact .inr (.inr (.inl ⟨_, rfl, rfl⟩))
    · -- `Complete`
      refine ⟨hfs, hwriters, hwtx, hsent, .inr (.inr (.inr ⟨sigs, rfl, hr, hend, .inl ⟨rfl, hs⟩⟩))⟩
  | send m es r hpc =>
    simp only [hpc, EncoderAt] at hat
    rcases hat with ⟨hes, -⟩ | ⟨sigs, ms, done, hes, hr, hrec, hs, hms⟩ | ⟨err, hes, -⟩ |
      ⟨sigs, rfl, hrec, hend, ⟨hes, hs⟩ | hes⟩
    · cases hes
    · rcases ms with - | ⟨m', ms⟩
      · cases hes
      · obtain ⟨hm', rfl⟩ := List.cons.inj hes
        obtain rfl := Effect.send.inj hm'
        have hsent' : h.sent ++ [m] = S.prologue i ++ (done ++ [m]) := by
          rw [hs, List.append_assoc]
        refine ⟨hfs, hwriters, hwtx, .inr ⟨sigs, by simp [Host.send, hrec], ?_⟩,
          .inr (.inl ⟨sigs, ms, done ++ [m], rfl, hr, hrec, hsent', by simpa using hms⟩)⟩
        show h.sent ++ [m] <+: _
        rw [hsent', List.prefix_append_right_inj, answer, ← hms]
        exact ⟨ms ++ (S.encoding fs i sigs).ending.closing, by simp⟩
    · cases hes
    · obtain ⟨hm', rfl⟩ := List.cons.inj hes
      obtain rfl := Effect.send.inj hm'
      refine ⟨hfs, hwriters, hwtx, .inr ⟨sigs, hrec, ?_⟩,
        .inr (.inr (.inr ⟨sigs, rfl, hrec, hend, .inr rfl⟩))⟩
      show h.sent ++ [completeRequest] <+: _
      rw [hs, List.append_assoc, answer, hend]
      exact List.prefix_rfl
    · cases hes
  | sendLost m es r hpc => exact ⟨hfs, hwriters, rfl, hsent, trivial⟩
  | forwardNowhere d es r hpc hw =>
    simp only [hpc, EncoderAt] at hat
    rcases hat with ⟨hes, -⟩ | ⟨sigs, - | ⟨m', ms⟩, done, hes, -⟩ | ⟨err, hes, -⟩ |
      ⟨sigs, -, -, -, ⟨hes, -⟩ | hes⟩ <;> cases hes
  | forwardLost d es r k w hpc hk => rw [hwtx] at hk; cases hk
  | forward d es r k w hpc hk => rw [hwtx] at hk; cases hk
  | spawn path cache ts es r hpc =>
    simp only [hpc, EncoderAt] at hat
    rcases hat with ⟨hes, -⟩ | ⟨sigs, - | ⟨m', ms⟩, done, hes, -⟩ | ⟨err, hes, -⟩ |
      ⟨sigs, -, -, -, ⟨hes, -⟩ | hes⟩ <;> cases hes
  | finishContinued hpc =>
    simp only [hpc, EncoderAt] at hat
    rcases hat with ⟨-, -, hs, hr, hpath⟩ | ⟨sigs, ms, done, hes, hr, hrec, hs, hms⟩ |
      ⟨err, -, hr⟩ | ⟨sigs, hr, -⟩
    · exact ⟨hfs, hwriters, hwtx, hsent, .inl ⟨hs, hr ▸ List.prefix_rfl, fun _ => hpath⟩⟩
    · obtain rfl : ms = [] := by simpa using hes.symm
      rw [List.append_nil] at hms
      refine ⟨hfs, hwriters, hwtx, hsent, .inr ⟨sigs, hrec, hms ▸ hs, ?_⟩⟩
      rcases hend : (S.encoding fs i sigs).ending with - | err | - | - <;>
        first | rfl | (rw [hend] at hr; cases hr)
    · cases hr
    · cases hr
  | finishCompleted hpc => exact ⟨hfs, hwriters, rfl, hsent, trivial⟩
  | finishErr err hpc => exact ⟨hfs, hwriters, rfl, hsent, trivial⟩
  | finishPanic hpc => exact ⟨hfs, hwriters, rfl, hsent, trivial⟩
  | finishRunning hpc => exact ⟨hfs, hwriters, hwtx, hsent, hat⟩
  | wake hpc => exact ⟨hfs, hwriters, rfl, hsent, trivial⟩
  | recv m payload hpc hpay =>
    simp only [hpc, EncoderAt] at hat
    obtain ⟨sigs', hnext⟩ := hpeer m rfl
    have hsent' := EncoderInv.sent_of_received hsent [m]
    refine ⟨hfs, hwriters, hwtx, hsent', ?_⟩
    rcases hat with ⟨hs, hr, hpath⟩ | ⟨sigs, hr, hs, hend⟩
    · by_cases hgot : h.received = S.prologue i.other
      · -- the prologue is in: these are the signatures
        rw [hgot] at hnext
        have hnext' : S.prologue i.other ++ [] ++ [m] <+:
            S.prologue i.other ++ [sigRequest sigs', completeRequest] := by
          rwa [List.append_nil]
        obtain ⟨-, rfl⟩ | ⟨hnil, -⟩ := next_of_prefix hnext'
        · obtain rfl := Option.some.inj hpay
          exact .inr (.inl ⟨sigs', rfl, hs, hpath hgot, by rw [hgot]⟩)
        · cases hnil
      · -- only a server waits for a prologue
        rcases i with - | -
        · exact absurd (List.prefix_nil.mp hr) hgot
        · have hnil : h.received = [] := by
            rcases hrec : h.received with - | ⟨x, xs⟩
            · rfl
            · rw [hrec] at hr hgot
              obtain ⟨rfl, hxs⟩ := List.cons_prefix_cons.mp hr
              exact absurd (by rw [List.prefix_nil.mp hxs]; rfl) hgot
          have hm : m = S.actionRequest := by
            rw [hnil] at hnext
            exact (List.cons_prefix_cons.mp hnext).1
          subst hm
          obtain rfl := Option.some.inj hpay
          exact .inl ⟨rfl, rfl, hs, by rw [hnil]; rfl⟩
    · rw [hr] at hnext
      obtain ⟨hnil, -⟩ | ⟨-, rfl⟩ := next_of_prefix hnext
      · cases hnil
      · obtain rfl := Option.some.inj hpay
        exact .inr (.inr ⟨sigs, rfl, by simp [hr], hs, hend⟩)
  | recvNothing m hpc hpay =>
    -- no message of the script is empty
    obtain ⟨sigs', hnext⟩ := hpeer m rfl
    have hmem : m ∈ S.prologue i.other ++ [sigRequest sigs', completeRequest] :=
      hnext.subset (by simp)
    have hne : m.payload ≠ none := by
      rcases i with - | - <;>
        simp only [Side.other, prologue, List.mem_append, List.mem_cons, List.not_mem_nil,
          or_false, false_or] at hmem
      · rcases hmem with rfl | rfl <;> exact Option.some_ne_none _
      · rcases hmem with rfl | rfl | rfl <;> exact Option.some_ne_none _
    exact absurd hpay hne
  | recvEnd hpc => exact ⟨hfs, hwriters, hwtx, hsent, trivial⟩
  | recvErr hpc => exact ⟨hfs, hwriters, rfl, hsent, trivial⟩
  | writer k ev w w' fs' hw => rw [hwriters] at hw; cases hw
  | readPanic ev read hpc he => exact ⟨hfs, hwriters, rfl, hsent, trivial⟩
  -- the rest are steps of the client of a download
  | sigCheck ev exist hpc => simp only [hpc, EncoderAt] at hat
  | sigRead ev read sigs cache hpc => simp only [hpc, EncoderAt] at hat
  | sigReadErr ev read err hpc => simp only [hpc, EncoderAt] at hat
  | sigSend sigs hpc => simp only [hpc, EncoderAt] at hat
  | sigLost sigs hpc => simp only [hpc, EncoderAt] at hat
  | writerCheck ev exist hpc => simp only [hpc, EncoderAt] at hat
  | writerRead ev read sigs cache hpc => simp only [hpc, EncoderAt] at hat
  | writerReadErr ev read err hpc => simp only [hpc, EncoderAt] at hat
  | writerSpawn cache hpc => simp only [hpc, EncoderAt] at hat

end Setup

end Harmonic
