/-
Harmonic/Completion.lean

An exchange without failures ends with the file in its place.

Until the receiver has answered `Complete` neither side leaves its loop
(`Smooth.answered_or_waits`): no call of the handler ends in an error, no writer
fails, and a side that has its peer sees no end of its stream.  The exchange does
end (`exchange_ends`), so the receiver has answered, its loop was left after
`Completed`, and its writer has put the file there (`exchange_installs`).
-/
import Harmonic.CarryOut
import Harmonic.Interruption
import Harmonic.Termination

namespace Harmonic

open Storage (Disk Failure)
open Lts (Halted Ends)

/-- A writer renames its file after its sender is gone. -/
theorem Writer.Move.closed_of_renamed {closed : Bool} {fs fs' : Fs} {w w' : Writer}
    {e : WriterEvent} (hm : Writer.Move closed fs w e fs' w') (hren : w'.isRenamed = true) :
    w.isRenamed = true ∨ closed = true := by
  cases hm with
  | close fs' inode hpc hqueue hclosed => exact .inr hclosed
  | stamp inode hpc => exact .inl (isRenamed_iff.mpr ⟨_, hpc⟩)
  | stampErr e hpc => exact .inl (isRenamed_iff.mpr ⟨_, hpc⟩)
  | recv inode d content hpc => simp [isRenamed, hpc] at hren
  | create | createErr | recvErr | closeErr | fault => cases hren

namespace Setup

variable {S : Setup} {fs : Side → Fs} {s : Side → Host} {enc i : Side} {new : Bytes}
  {h h' : Host} {e : HostEvent}

/-! ### How a task closes -/

/-- A task about to leave its loop after `Completed` has got `Complete` and
answers it; one that has left it so returns `Ok`; and a writer whose sender it
holds has not renamed its file. -/
structure Closes (h : Host) : Prop where
  completing : ∀ es, h.pc = .running es .completed →
    completeRequest ∈ h.sent ++ sendsOf es ∧ ∃ b, (Payload.complete b).request ∈ h.received
  completed : h.completed = true → h.pc = .sleeping ∨ h.pc = .ended .ok
  holds : ∀ k w, h.writerTx = some k → h.writers[k]? = some w → w.isRenamed = false

/-- A task that is neither asleep nor back has not left its loop. -/
theorem Closes.not_completed (hinv : Closes h) (h₁ : h.pc ≠ .sleeping) (h₂ : ∀ r, h.pc ≠ .ended r) :
    h.completed = false := by
  by_contra hc
  rcases hinv.completed (by simpa using hc) with hpc | hpc
  · exact h₁ hpc
  · exact h₂ _ hpc

/-- The task has not left its loop, and is not about to; its writers are as
before. -/
theorem Closes.of_loop (hinv : Closes h) (hes : ∀ es, h'.pc ≠ .running es .completed)
    (hcompleted : h'.completed = false) (hwriters : h'.writers = h.writers)
    (htx : h'.writerTx = h.writerTx ∨ h'.writerTx = none) : Closes h' where
  completing es hpc := absurd hpc (hes es)
  completed hc := by rw [hcompleted] at hc; cases hc
  holds k w hk hw := by
    rcases htx with htx | htx
    · exact hinv.holds k w (htx ▸ hk) (hwriters ▸ hw)
    · cases htx.symm.trans hk

/-- A new writer has renamed nothing. -/
theorem holds_spawnWriter (path : PathBuf) (cache : BlockCache) (ts : Timestamp) (pc : Pc) (k : ℕ)
    (w : Writer) (hk : (h.spawnWriter path cache ts pc).writerTx = some k)
    (hw : (h.spawnWriter path cache ts pc).writers[k]? = some w) : w.isRenamed = false := by
  obtain rfl : h.writers.length = k := Option.some.inj hk
  rw [Host.spawnWriter, List.getElem?_concat_length] at hw
  rw [← Option.some.inj hw]
  rfl

/-- **Step.** -/
theorem Closes.move (hinv : Closes h) (hhandles : Handles h) (hm : S.SideMove i h e h') :
    Closes h' := by
  cases hm with
  | handle ev read payload hpc he =>
    have hc := hinv.not_completed (by simp [hpc]) (by simp [hpc])
    refine ⟨fun es hrun => ?_, fun h' => ?_, hinv.holds⟩
    · -- only `Complete` completes, and it is answered
      obtain ⟨hes, hres⟩ := Pc.running.inj hrun
      have hmem := hhandles.handling payload hpc
      cases payload with
      | complete b =>
        obtain rfl : [Effect.send completeRequest] = es := hes
        exact ⟨List.mem_append_right _ (List.mem_singleton_self _), b, hmem⟩
      | delta d => cases hres
      | signatures sigs =>
        simp only [handleSyncPayload] at hres
        split at hres
        · cases hres
        · rename_i abs habs
          cases hend : (sendDelta S.crates sigs (read abs)).ending <;> simp [hend, Ending.result] at hres
      | fileAction action =>
        simp only [handleSyncPayload, startUpload] at hres
        split at hres
        · cases hres
        · split at hres
          · split at hres
            · cases hres
            · cases hres
            · split at hres <;> cases hres
          · cases hres
    · cases hc.symm.trans h'
  | send m es r hpc =>
    have hc := hinv.not_completed (by simp [hpc]) (by simp [hpc])
    refine ⟨fun es' hrun => ?_, fun h' => ?_, hinv.holds⟩
    · obtain ⟨rfl, rfl⟩ := Pc.running.inj hrun
      obtain ⟨hmem, hgot⟩ := hinv.completing _ hpc
      refine ⟨?_, hgot⟩
      show completeRequest ∈ (h.sent ++ [m]) ++ sendsOf es
      rw [List.append_assoc]
      exact hmem
    · cases hc.symm.trans h'
  | forwardNowhere d es r hpc hw =>
    have hc := hinv.not_completed (by simp [hpc]) (by simp [hpc])
    refine ⟨fun es' hrun => ?_, fun h' => ?_, hinv.holds⟩
    · obtain ⟨rfl, rfl⟩ := Pc.running.inj hrun
      have hcompletes := hinv.completing _ hpc
      exact hcompletes
    · cases hc.symm.trans h'
  | forward d es r k w hpc hk hw =>
    have hc := hinv.not_completed (by simp [hpc]) (by simp [hpc])
    refine ⟨fun es' hrun => ?_, fun h' => ?_, fun k' w' hk' hw' => ?_⟩
    · obtain ⟨rfl, rfl⟩ := Pc.running.inj hrun
      have hcompletes := hinv.completing _ hpc
      exact hcompletes
    · cases hc.symm.trans h'
    · obtain rfl : k = k' := Option.some.inj (hk.symm.trans hk')
      rw [List.getElem?_set_self' , hw] at hw'
      rw [← Option.some.inj hw']
      exact hinv.holds k w hk hw
  | spawn path cache ts es r hpc =>
    have hc := hinv.not_completed (by simp [hpc]) (by simp [hpc])
    refine ⟨fun es' hrun => ?_, fun h' => ?_, holds_spawnWriter path cache ts _⟩
    · obtain ⟨rfl, rfl⟩ := Pc.running.inj hrun
      have hcompletes := hinv.completing _ hpc
      exact hcompletes
    · cases hc.symm.trans h'
  | writerSpawn cache hpc =>
    have hc := hinv.not_completed (by simp [hpc]) (by simp [hpc])
    refine ⟨fun es => Pc.noConfusion, fun h' => ?_, holds_spawnWriter _ _ _ _⟩
    cases hc.symm.trans h'
  | writer k ev w w' fs' hw hstep =>
    refine ⟨hinv.completing, hinv.completed, fun k' v hk' hv => ?_⟩
    by_cases hkk : k = k'
    · subst hkk
      rw [List.getElem?_set_self', hw] at hv
      obtain rfl := Option.some.inj hv
      -- its sender is held, so it does not rename its file now
      by_contra hren
      rcases (Writer.move_of_step hstep).closed_of_renamed (by simpa using hren) with hold | hclosed
      · rw [hinv.holds k w hk' hw] at hold
        cases hold
      · exact of_decide_eq_true hclosed hk'
    · rw [List.getElem?_set_ne hkk] at hv
      exact hinv.holds k' v hk' hv
  | finishRunning hpc => exact hinv
  | finishCompleted hpc =>
    refine ⟨fun es => Pc.noConfusion, fun _ => .inl rfl, fun k w hk => ?_⟩
    cases hk
  | wake hpc =>
    refine ⟨fun es => Pc.noConfusion, fun _ => .inr rfl, fun k w hk => ?_⟩
    cases hk
  | recvEnd hpc =>
    exact ⟨fun es => Pc.noConfusion, fun _ => .inl rfl, hinv.holds⟩
  | sendAction hpc =>
    have hc := hinv.not_completed (by simp [hpc]) (by simp [hpc])
    refine hinv.of_loop (fun es => ?_) hc rfl (.inl rfl)
    show (if _ then _ else _) ≠ _
    split <;> exact Pc.noConfusion
  | sigCheck ev exist hpc | writerCheck ev exist hpc =>
    have hc := hinv.not_completed (by simp [hpc]) (by simp [hpc])
    refine hinv.of_loop (fun es => ?_) hc rfl (.inl rfl)
    rcases exist with - | - <;> exact Pc.noConfusion
  | refused hpc | readPanic ev read hpc =>
    have hc := hinv.not_completed (by rcases hpc with hpc | hpc <;> simp [hpc])
      (by rcases hpc with hpc | hpc <;> simp [hpc])
    exact hinv.of_loop (fun es => Pc.noConfusion) hc rfl (.inr rfl)
  | sendLost m es r hpc | forwardLost d es r k w hpc | finishErr err hpc | finishPanic hpc
  | recvErr hpc =>
    have hc := hinv.not_completed (by simp [hpc]) (by simp [hpc])
    exact hinv.of_loop (fun es => Pc.noConfusion) hc rfl (.inr rfl)
  | connect hpc | sigRead ev read sigs cache hpc | sigReadErr ev read err hpc | sigSend sigs hpc
  | sigLost sigs hpc | writerRead ev read sigs cache hpc | writerReadErr ev read err hpc
  | finishContinued hpc | recv m payload hpc | recvNothing m hpc =>
    have hc := hinv.not_completed (by simp [hpc]) (by simp [hpc])
    exact hinv.of_loop (fun es => Pc.noConfusion) hc rfl (.inl rfl)

theorem closes_reachable (h : S.Reachable fs s) (i : Side) : Closes (s i) := by
  refine side_invariant h (I := fun _ => Closes) ?_
    (fun s i e h' hr hI _ hm => (hI i).move (handles_reachable hr i) hm) i
  rintro (- | -) <;>
    refine ⟨fun _ => Pc.noConfusion, Bool.noConfusion, fun k w hk => ?_⟩ <;> cases hk

/-- A receiver that has answered `Complete` is about to leave its loop, or has
left it. -/
theorem completing_of_sent (hreg : S.Regular) (henc : S.Encodes enc) (h : S.Reachable fs s) :
    completeRequest ∈ (s enc.other).sent →
      (s enc.other).completed = true ∨ (s enc.other).pc = .running [] .completed := by
  have hall : ∀ i, i = enc.other → completeRequest ∈ (s i).sent →
      (s i).completed = true ∨ (s i).pc = .running [] .completed := by
    refine side_invariant h (I := fun i h => i = enc.other → completeRequest ∈ h.sent →
      h.completed = true ∨ h.pc = .running [] .completed) ?_ ?_
    · rintro (- | -) - hmem <;> cases hmem
    · rintro s i e h' hr hI hallow hm rfl hmem
      have hclose := closes_reachable hr enc.other
      -- before that there is no `Complete` in its log
      have hnot : (s enc.other).pc ≠ .running [] .completed → (s enc.other).pc ≠ .sleeping →
          (∀ r, (s enc.other).pc ≠ .ended r) → completeRequest ∉ (s enc.other).sent := by
        intro h₁ h₂ h₃ hin
        rcases hI _ rfl hin with hc | hpc
        · rw [hclose.not_completed h₂ h₃] at hc
          cases hc
        · exact h₁ hpc
      cases hm with
      | send m es r hpc =>
        rcases (session_invariant hreg henc hr).2 with hbefore | ⟨w, hafter⟩
        · -- these are signatures
          have hat := hbefore.at_pc
          rw [hpc] at hat
          obtain ⟨-, -, ⟨sigs, cache, ts, -, -, ⟨hes, -⟩ | ⟨hes, -⟩⟩ | ⟨hes, -⟩⟩ := hat
          · obtain rfl := Effect.send.inj (List.cons.inj hes).1
            rcases List.mem_append.mp hmem with hin | hin
            · exact absurd hin (hnot (by simp [hpc]) (by simp [hpc]) (by simp [hpc]))
            · have hreq := List.mem_singleton.mp hin
              simp [sigRequest, completeRequest, Payload.request] at hreq
          · cases hes
          · cases hes
        · have hat := hafter.at_pc
          rw [hpc] at hat
          obtain ⟨-, -, ⟨-, -, -, ⟨d, hes, -⟩ | ⟨hes, -⟩⟩ | ⟨rfl, -, -, ⟨hes, -⟩ | hes⟩⟩ := hat
          · cases hes
          · cases hes
          · obtain ⟨-, rfl⟩ := List.cons.inj hes
            exact .inr rfl
          · cases hes
      | sendAction hpc =>
        rcases List.mem_append.mp hmem with hin | hin
        · exact absurd hin (hnot (by simp [hpc]) (by simp [hpc]) (by simp [hpc]))
        · have hreq := List.mem_singleton.mp hin
          simp [completeRequest, Payload.request] at hreq
      | sigSend sigs hpc =>
        rcases List.mem_append.mp hmem with hin | hin
        · exact absurd hin (hnot (by simp [hpc]) (by simp [hpc]) (by simp [hpc]))
        · have hreq := List.mem_singleton.mp hin
          simp [completeRequest, Payload.request] at hreq
      | finishCompleted hpc => exact .inl rfl
      | finishRunning hpc => exact hI _ rfl hmem
      | writer k ev w w' fs' => exact hI _ rfl hmem
      | wake hpc =>
        rcases hI _ rfl hmem with hc | hpc'
        · exact .inl hc
        · cases hpc.symm.trans hpc'
      | refused hpc | readPanic ev read hpc =>
        refine absurd hmem (hnot ?_ ?_ ?_) <;> rcases hpc with hpc | hpc <;> simp [hpc]
      | connect hpc | sigCheck ev exist hpc | sigRead ev read sigs cache hpc
      | sigReadErr ev read err hpc | sigLost sigs hpc | writerCheck ev exist hpc
      | writerRead ev read sigs cache hpc | writerReadErr ev read err hpc | writerSpawn cache hpc
      | handle ev read payload hpc | sendLost m es r hpc | forwardNowhere d es r hpc
      | forwardLost d es r k w hpc | forward d es r k w hpc | spawn path cache ts es r hpc
      | finishContinued hpc | finishErr err hpc | finishPanic hpc | recv m payload hpc
      | recvNothing m hpc | recvEnd hpc | recvErr hpc =>
        exact absurd hmem (hnot (by simp [hpc]) (by simp [hpc]) (by simp [hpc]))
  exact hall _ rfl

/-! ### Without failures -/

/-- A transfer of `new` with nothing in its way: nothing fails by itself, there
is room for the file, the receiver's block size is one that can be used, and the
channels hold something. -/
structure Smooth (S : Setup) (fs : Side → Fs) (enc : Side) (new : Bytes) : Prop where
  transfer : S.Transfer fs enc new
  undisturbed : S.Undisturbed fs enc
  small : new.length ≤ isizeMax
  blockSize : 1 ≤ (S.config enc.other).blockSize ∧ (S.config enc.other).blockSize ≤ isizeMax
  channel : ∀ i, 0 < S.channelCapacity i
  writer : ∀ i, 0 < S.writerCapacity i

namespace Smooth

variable (hs : S.Smooth fs enc new)
include hs

theorem localFaults : S.LocalFaults := by
  intro i pc e hfault
  rw [hs.undisturbed.fault] at hfault
  cases hfault

/-- The receiver can sign its file. -/
theorem exists_signing : ∃ r, S.signing (fs enc.other) enc.other = .ok r := by
  obtain ⟨h1, h2⟩ := hs.blockSize
  rw [signing, generateBlocksSignatures, hs.transfer.regular.getAbsolutePath enc.other]
  -- the file is missing, or there is one; a directory is not there
  rcases he : (fs enc.other).entry (S.abs enc.other).resolve with - | - | n <;>
    simp only [Fs.readFile, Disk.read, he, Except.map]
  · exact blocksSignatures_isOk _ h1 h2 []
  · exact absurd he hs.undisturbed.dest
  · exact blocksSignatures_isOk _ h1 h2 _

theorem planned : S.Planned := by
  have henc := hs.transfer.encodes
  rcases enc with - | -
  · exact ⟨.upload, henc⟩
  · exact ⟨.download, henc⟩

/-- The client asks for what is to be done. -/
theorem requested : S.Requested (fs .client) := by
  have henc := hs.transfer.encodes
  refine ⟨fun hskip => ?_, ?_⟩
  · rcases enc with - | -
    · have hup : S.action.direction = TransferDirection.upload.toI32 := henc
      exact absurd (hskip.symm.trans hup) (by decide)
    · have hdown : S.action.direction = TransferDirection.download.toI32 := henc
      exact absurd (hskip.symm.trans hdown) (by decide)
  · rintro ⟨hdown, -, hfault | ⟨err, herr⟩⟩
    · rw [hs.undisturbed.fault] at hfault
      cases hfault
    · -- the client of a download is the receiver
      rcases enc with - | -
      · have hup : S.action.direction = TransferDirection.upload.toI32 := henc
        exact absurd (hup.symm.trans hdown) (by decide)
      · obtain ⟨r, hr⟩ := hs.exists_signing
        cases hr.symm.trans herr

/-- Every answer of the encoder ends with `Complete`. -/
theorem ending_ok {sigs : BlockSignatures} (hoff : S.Offered (fs enc.other) enc.other sigs) :
    (S.encoding (fs enc) enc sigs).ending = .ok := by
  obtain ⟨h1, h2⟩ := hs.blockSize
  have hsize : sigs.blockSize = (S.config enc.other).blockSize := by
    rcases hoff with rfl | ⟨cache, hsign⟩
    · rfl
    · exact (blocksSignatures_eq_ok _ (signing_eq_ok hs.transfer.regular hsign)).2.2.1
  rw [encoding, readFile_eq_ok.mpr hs.transfer.source]
  refine sendDelta_ok (hsize ▸ h1) (hsize ▸ h2) ?_
  have hsmall := hs.small
  have hmax : isizeMax + isizeMax ≤ usizeMax := by decide
  omega

/-- Nothing fails by itself. -/
theorem not_fail (hallow : S.allows s i .fail = true) : (s i.other).returned = true := by
  simp only [allows, hs.undisturbed.fault, Bool.false_or, Bool.and_eq_true] at hallow
  exact hallow.2

/-- **Calls end well**: none with an error, none with a panic. -/
theorem result_of_handling (h : S.Reachable fs s) {p : Payload}
    (hpc : (s i).pc = .handling p) {read : PathBuf → Except Failure Bytes}
    (hread : read = (s i).fs.readFile) :
    (handleSyncPayload S.crates (S.config i) read (s i).filePath
        (s i).writerTx.isSome p).result = .continued ∨
      (handleSyncPayload S.crates (S.config i) read (s i).filePath
        (s i).writerTx.isSome p).result = .completed := by
  have hreg := hs.transfer.regular
  have henc := hs.transfer.encodes
  have hmem := (handles_reachable h i).handling p hpc
  cases p with
  | delta d => exact .inl rfl
  | complete b => exact .inr rfl
  | signatures sigs =>
    obtain rfl : i = enc := by
      by_contra hi
      obtain rfl : i = enc.other := Side.eq_other_of_ne (Ne.symm hi)
      exact sigRequest_notMem_received hreg henc h sigs hmem
    obtain ⟨file, hrun, hfile, -⟩ := answer_of_handling hreg henc h hpc (.inl hread)
    have hend := hs.ending_ok (offered_of_received hreg henc h hmem)
    rw [encoding, ← hfile hread] at hend
    exact .inl (by rw [hrun]; simp only [hend]; rfl)
  | fileAction a =>
    left
    obtain ⟨hencoder, hreceiver⟩ := session_invariant hreg henc h
    by_cases hi : i = enc
    · -- a download asks the server for signatures first
      subst hi
      have hat := hencoder.at_pc
      rw [hpc] at hat
      obtain ⟨ha, rfl, -⟩ | ⟨sigs, ha, -⟩ | ⟨sigs, ha, -⟩ := hat
      · obtain rfl := Payload.fileAction.inj ha
        have hdown : S.action.direction = TransferDirection.download.toI32 := henc
        simp only [handleSyncPayload, hdown, if_true]
      · cases ha
      · cases ha
    · -- the server of an upload signs its file
      obtain rfl : i = enc.other := Side.eq_other_of_ne (Ne.symm hi)
      rcases hreceiver with hbefore | ⟨w, hafter⟩
      · have hat := hbefore.at_pc
        rw [hpc] at hat
        obtain ⟨hserver, ha, -⟩ := hat
        obtain rfl := Payload.fileAction.inj ha
        have hup : S.action.direction = TransferDirection.upload.toI32 := by
          rcases enc with - | -
          · exact henc
          · cases hserver
        obtain ⟨⟨sigs, cache⟩, hsign⟩ := hs.exists_signing
        have hgen : generateBlocksSignatures S.crates (S.config enc.other) read
            (.ofString S.action.path) = .ok (sigs, cache) := by
          rw [hread, hbefore.fs_eq]
          exact hsign
        have habs : getAbsolutePath S.crates (.ofString S.action.path)
            (S.config enc.other).syncPath = .ok (S.abs enc.other) := hreg.getAbsolutePath _
        simp only [handleSyncPayload_upload hup, startUpload, hgen, habs]
      · have hat := hafter.at_pc
        rw [hpc] at hat
        obtain ⟨-, -, -, ⟨d, ha, -⟩ | ⟨ha, -⟩⟩ := hat <;> cases ha

/-- What is read is the file. -/
theorem reads (hallow : S.allows s i e = true) {read : PathBuf → Except Failure Bytes}
    (he : (s i).Reads e read) (hpc : (s i).pc.isSending = false) : read = (s i).fs.readFile := by
  rcases he with ⟨-, hread⟩ | ⟨rfl, -⟩
  · exact hread
  · simp [allows, hs.undisturbed.fault, hpc] at hallow

/-- No call ends in an error. -/
theorem result (h : S.Reachable fs s) : ∀ i es r, (s i).pc = .running es r →
    r = .continued ∨ r = .completed := by
  refine side_invariant h (I := fun _ h => ∀ es r, h.pc = .running es r →
    r = .continued ∨ r = .completed) ?_ ?_
  · rintro (- | -) es r hpc <;> cases hpc
  · intro s i e h' hr hI hallow hm es r hrun
    cases hm with
    | handle ev read payload hpc he =>
      obtain ⟨-, rfl⟩ := Pc.running.inj hrun
      exact hs.result_of_handling hr hpc (hs.reads hallow he (by rw [hpc]; rfl))
    | send m es r hpc | forwardNowhere d es r hpc | forward d es r k w hpc
    | spawn path cache ts es r hpc =>
      obtain ⟨-, rfl⟩ := Pc.running.inj hrun
      exact hI i _ _ hpc
    | finishRunning | writer => exact hI i _ _ hrun
    | sendAction hpc =>
      simp only [Host.send] at hrun
      split at hrun <;> cases hrun
    | sigCheck ev exist | writerCheck ev exist => rcases exist with - | - <;> cases hrun
    | _ => cases hrun

/-- **Step.**  While both sides are in their loops, or before them, a side stays
there until the receiver has answered `Complete`. -/
theorem answered_or_stays (h : S.Reachable fs s) (hwaits : ∀ i, Waits (s i))
    (hallow : S.allows s i e = true) (hm : S.SideMove i (s i) e h') :
    completeRequest ∈ (s enc.other).sent ∨ Waits h' := by
  have hreg := hs.transfer.regular
  have henc := hs.transfer.encodes
  obtain ⟨hencoder, hreceiver⟩ := session_invariant hreg henc h
  have hpeer : (s i.other).returned ≠ true := by simp [(hwaits i.other).1]
  cases hm with
  | refused hpc => exact absurd (hs.not_fail hallow) hpeer
  | sendLost m es r hpc => exact absurd (hs.not_fail hallow) hpeer
  | readPanic ev read hpc he hgen =>
    -- the file can be signed
    have hsend : (s i).pc.isSending = false := by rcases hpc with hpc | hpc <;> rw [hpc] <;> rfl
    rw [hs.reads hallow he hsend] at hgen
    obtain ⟨r, hr⟩ := hs.exists_signing
    have hpath : i = enc.other ∧ (s i).fs = fs i ∧ (s i).filePath = S.target := by
      by_cases hi : i = enc
      · subst hi
        have hat := hencoder.at_pc
        rcases hpc with hpc | hpc <;> rw [hpc] at hat <;> exact hat.elim
      · obtain rfl : i = enc.other := Side.eq_other_of_ne (Ne.symm hi)
        rcases hreceiver with hbefore | ⟨w, hafter⟩
        · have hat := hbefore.at_pc
          rcases hpc with hpc | hpc <;> rw [hpc] at hat <;> exact ⟨rfl, hbefore.fs_eq, hat.2.2.1⟩
        · have hat := hafter.at_pc
          rcases hpc with hpc | hpc <;> rw [hpc] at hat <;> exact hat.elim
    obtain ⟨rfl, hfs, hpath⟩ := hpath
    rw [hfs, hpath] at hgen
    cases hr.symm.trans hgen
  | forwardLost d es r k w hpc hk hget hended =>
    -- the writer has neither failed nor renamed its file
    have hren := (closes_reachable h i).holds k w hk hget
    have hmem := List.mem_of_getElem? hget
    have hfail : w.pc ≠ .failed := by
      by_cases hi : i = enc
      · subst hi
        rw [hencoder.writers] at hmem
        cases hmem
      · obtain rfl : i = enc.other := Side.eq_other_of_ne (Ne.symm hi)
        exact never_failed hs.transfer hs.undisturbed.quiet hs.undisturbed.room h w hmem
    rcases hpc' : w.pc with - | inode | stamped | - <;>
      simp [Writer.ended, Writer.isRenamed, hpc'] at hended hren hfail
  | finishErr err hpc => rcases hs.result h i _ _ hpc with hr | hr <;> cases hr
  | finishPanic hpc => rcases hs.result h i _ _ hpc with hr | hr <;> cases hr
  | finishCompleted hpc =>
    left
    obtain ⟨hsent, b, hgot⟩ := (closes_reachable h i).completing _ hpc
    by_cases hi : i = enc
    · -- the encoder has it from the receiver
      subst hi
      have hin := (received_isPrefix h i).subset hgot
      obtain ⟨sigs, -, hpre⟩ := hreceiver.sent
      have hscript := hpre.subset hin
      have hb : (Payload.complete b).request = completeRequest := by
        rcases i with - | - <;>
          simpa [prologue, sigRequest, actionRequest, completeRequest, Payload.request,
            Side.other] using hscript
      rwa [← hb]
    · obtain rfl : i = enc.other := Side.eq_other_of_ne (Ne.symm hi)
      simpa [sendsOf] using hsent
  | wake hpc => exact absurd hpc (hwaits i).2
  | recvEnd hpc =>
    have hcompleted := (closes_reachable h i.other).not_completed (hwaits i.other).2 fun r hpc => by
      simp [Host.returned, hpc] at hpeer
    simp [allows, Host.txDropped, hcompleted, (hwaits i.other).1] at hallow
  | recvErr hpc =>
    simp [allows, hs.undisturbed.fault, (hwaits i.other).1] at hallow
  | finishRunning | writer => exact .inr (hwaits i)
  | sendAction hpc =>
    right
    show Waits (Host.send _ _ (if _ then _ else _))
    split <;> exact ⟨rfl, Pc.noConfusion⟩
  | sigCheck ev exist | writerCheck ev exist =>
    rcases exist with - | - <;> exact .inr ⟨rfl, Pc.noConfusion⟩
  | _ => exact .inr ⟨rfl, Pc.noConfusion⟩

/-- **Run.**  Neither side leaves its loop before the receiver has answered
`Complete`. -/
theorem answered_or_waits (h : S.Reachable fs s) :
    completeRequest ∈ (s enc.other).sent ∨ ∀ i, Waits (s i) := by
  refine h.invariant (I := fun s => completeRequest ∈ (s enc.other).sent ∨ ∀ i, Waits (s i)) ?_ ?_
  · right
    rintro (- | -) <;> exact ⟨rfl, Pc.noConfusion⟩
  · rintro s ⟨i, e⟩ s' hr hI hstep
    obtain ⟨hallow, c, hc, rfl⟩ := Lts.Net.step_eq_some.mp hstep
    have hm : S.SideMove i (s i) e c := Host.move_of_step hc
    have hgrow : completeRequest ∈ (s enc.other).sent →
        completeRequest ∈ (Function.update s i c enc.other).sent := by
      intro hin
      by_cases hi : enc.other = i
      · subst hi
        rw [Function.update_self]
        exact hm.sent_isPrefix.subset hin
      · rwa [Function.update_of_ne hi]
    rcases hI with hin | hwaits
    · exact .inl (hgrow hin)
    · refine (hs.answered_or_stays hr hwaits hallow hm).imp hgrow fun hc j => ?_
      by_cases hj : j = i
      · subst hj
        rwa [Function.update_self]
      · rw [Function.update_of_ne hj]
        exact hwaits j

/-- Where nothing more can happen the receiver has completed. -/
theorem completed_of_halted (h : S.Reachable fs s) (hhalt : Halted S.net.step s) :
    (s enc.other).completed = true := by
  have hreg := hs.transfer.regular
  have hover := over_of_halted hreg hs.planned hs.localFaults hs.channel hs.writer hs.requested h
    hhalt
  have hret := (hover enc.other).1
  rcases hs.answered_or_waits h with hin | hwaits
  · refine (completing_of_sent hreg hs.transfer.encodes h hin).resolve_right fun hpc => ?_
    rw [Host.returned, hpc] at hret
    cases hret
  · rw [(hwaits enc.other).1] at hret
    cases hret

/-- A receiver that has not completed still holds the sender of its writer. -/
theorem completed_of_renamed (h : S.Reachable fs s) {w : Writer}
    (hw : w ∈ (s enc.other).writers) (hren : w.isRenamed = true) :
    (s enc.other).completed = true := by
  have hreg := hs.transfer.regular
  have hafter := after_of_mem hreg hs.transfer.encodes h hw
  by_contra hc
  have hholds : (s enc.other).writerTx ≠ some 0 := by
    intro htx
    have hget : (s enc.other).writers[0]? = some w := by rw [hafter.writers]; rfl
    rw [(closes_reachable h enc.other).holds 0 w htx hget] at hren
    cases hren
  have hat := hafter.at_pc
  rcases hs.answered_or_waits h with hin | hwaits
  · -- it is about to leave its loop
    have hpc := (completing_of_sent hreg hs.transfer.encodes h hin).resolve_left hc
    rw [hpc] at hat
    exact hholds hat.1
  · obtain ⟨hret, hsleep⟩ := hwaits enc.other
    rcases hpc : (s enc.other).pc <;> rw [hpc] at hat
    case recv | handling | running => exact hholds hat.1
    case sleeping => exact hsleep hpc
    case ended => simp [Host.returned, hpc] at hret
    all_goals exact hat.elim

/-- **No other content is ever seen**: the receiver has its old file or the
sender's. -/
theorem file_old_or_new (h : S.Reachable fs s) :
    S.file (s enc.other).fs enc.other = S.file (fs enc.other) enc.other ∨
      S.file (s enc.other).fs enc.other = some new := by
  rcases hws : (s enc.other).writers with - | ⟨w, ws⟩
  · exact .inl (file_of_no_writer hs.transfer h hws)
  · have hmem : w ∈ (s enc.other).writers := by simp [hws]
    obtain ⟨-, -, hfile⟩ := file_of_mem hs.transfer h hmem
    rcases hren : w.isRenamed with - | -
    · exact .inl (by simpa [hren] using hfile)
    · obtain ⟨stamped, hpc⟩ := Writer.isRenamed_iff.mp hren
      have hafter := after_of_mem hs.transfer.regular hs.transfer.encodes h hmem
      have hcompleted := hs.completed_of_renamed h hmem hren
      exact .inr (file_of_renamed hs.transfer h hafter hcompleted hpc).2

/-- **Without failures every exchange delivers the file.**  In every order of
steps it comes to an end after a bounded number of them; there the receiver has
returned `Ok` with the sender's file in its place, and the sender's disk is as
it was. -/
theorem exchange_installs : Ends S.net.step (init fs) fun s =>
    Over s ∧ (s enc.other).pc = .ended .ok ∧ S.file (s enc.other).fs enc.other = some new ∧
      (s enc).fs = fs enc := by
  obtain ⟨most, hb⟩ := exists_bounded hs.transfer.regular hs.planned fs
  refine hb.ranked.ends fun s h hhalt => ?_
  have hover : Over s := fun i => over_of_halted hs.transfer.regular hs.planned hs.localFaults
    hs.channel hs.writer hs.requested h hhalt i
  have hcompleted := hs.completed_of_halted h hhalt
  refine ⟨hover, ?_, ?_, (session_invariant hs.transfer.regular hs.transfer.encodes h).1.fs_eq⟩
  · refine ((closes_reachable h enc.other).completed hcompleted).resolve_left fun hpc => ?_
    have hret := (hover enc.other).1
    rw [Host.returned, hpc] at hret
    cases hret
  · exact installed_of_done hs.transfer hs.undisturbed.quiet hs.undisturbed.room h hcompleted
      (hover enc.other).2

end Smooth

/-- `exchange_installs` for a transfer of `[1, 2, 3]` over `[1, 2, 9]`. -/
theorem exchange_installs_upload :
    ∃ s, (sampleSetup .upload fun _ _ _ => false).Reachable
        (sampleDisks (some [1, 2, 3]) (some [1, 2, 9])) s ∧ (s .server).pc = .ended .ok ∧
      (sampleSetup .upload fun _ _ _ => false).file (s .server).fs .server = some [1, 2, 3] := by
  have ht : (sampleSetup .upload fun _ _ _ => false).Transfer
      (sampleDisks (some [1, 2, 3]) (some [1, 2, 9])) .client [1, 2, 3] :=
    ⟨sample_regular _ _, rfl, by decide, by decide,
      sampleCrates_injOn (b := 2) (by decide) (by decide) _ _⟩
  have hsmooth : (sampleSetup .upload fun _ _ _ => false).Smooth
      (sampleDisks (some [1, 2, 3]) (some [1, 2, 9])) .client [1, 2, 3] :=
    ⟨ht, ⟨⟨by decide, by decide, by decide⟩, fun _ _ _ => rfl⟩, by decide, by decide,
      fun _ => Nat.one_pos, fun _ => Nat.one_pos⟩
  obtain ⟨s, hs, -, hpc, hfile, -⟩ := hsmooth.exchange_installs.exists_reaches .refl
  exact ⟨s, hs, hpc, hfile⟩

end Setup

end Harmonic
