/-
Harmonic/Deadlock.lean

An exchange comes to a halt only when it is over.

`Progress` speaks of exchanges with nothing on the way.  Two sides could also
wait for each other with both streams full, each about to send and neither
taking anything.  They do not: a receiver about to send has sent its signatures
at most, and an encoder about to send has taken them, so the stream towards the
encoder is empty (`toward_encoder`).  So where nothing more can happen both
tasks have returned and their writers have ended (`over_of_halted`).
-/
import Harmonic.Concurrent

namespace Harmonic

open Lts (Halted)

/-- A writer whose sender is gone can move until it has ended. -/
theorem Writer.exists_step_of_closed {w : Writer} {fs : Fs} (hended : w.ended = false) :
    ∃ ev, ev ≠ .fault ∧ w.step true fs ev ≠ none := by
  by_cases hqueue : w.queue = []
  · cases hpc : w.pc with
    | starting =>
      refine ⟨.create, WriterEvent.noConfusion, ?_⟩
      simp only [Writer.step, hpc]
      split <;> exact Option.some_ne_none _
    | writing inode =>
      refine ⟨.close, WriterEvent.noConfusion, ?_⟩
      simp only [Writer.step, hpc, hqueue]
      split <;> exact Option.some_ne_none _
    | renamed | failed => simp [Writer.ended, hpc] at hended
  · exact Writer.exists_step hended hqueue

/-- A task that has returned holds no sender. -/
theorem Host.Move.writerTx_of_returned {D : Crates} {config : Config} {action : FileAction}
    {cap : ℕ} {h h' : Host} {e : HostEvent} (hm : Host.Move D config action cap h e h')
    (htx : h.returned = true → h.writerTx = none) : h'.returned = true → h'.writerTx = none := by
  intro hret
  cases hm with
  | refused | readPanic | sendLost | forwardLost | finishErr | finishPanic | wake | recvErr => rfl
  | writer | finishRunning => exact htx hret
  | sendAction hpc =>
    simp only [Host.returned, Host.send] at hret
    split at hret <;> split_ifs at *
  | sigCheck e exist | writerCheck e exist => rcases exist with - | - <;> cases hret
  | _ => cases hret

namespace Setup

variable {S : Setup} {fs : Side → Fs} {s : Side → Host} {enc i : Side} {h : Host}

/-! ### Both sides about to send -/

theorem sigRequest_notMem_prologue (sigs : BlockSignatures) (i : Side) :
    sigRequest sigs ∉ S.prologue i := by
  intro hmem
  rcases i with - | -
  · have hreq := List.mem_singleton.mp hmem
    simp [sigRequest, actionRequest, Payload.request] at hreq
  · cases hmem

/-- An encoder about to send has taken the signatures, or has not begun. -/
theorem EncoderInv.got_of_sending {f : Fs} (hinv : S.EncoderInv f i h)
    (hpc : h.pc.isSending = true) : h.sent = [] ∨ ∃ sigs, sigRequest sigs ∈ h.received := by
  have hat := hinv.at_pc
  cases hp : h.pc with
  | sendAction =>
    rw [hp] at hat
    exact .inl hat.2.1
  | sigSend sigs =>
    rw [hp] at hat
    exact hat.elim
  | running es r =>
    rw [hp] at hat hpc
    obtain ⟨rfl, -⟩ | ⟨sigs, ms, done, -, -, hr, -⟩ | ⟨err, rfl, -⟩ | ⟨sigs, -, hr, -⟩ := hat
    · cases hpc
    · exact .inr ⟨sigs, by simp [hr]⟩
    · cases hpc
    · exact .inr ⟨sigs, hr⟩
  | _ =>
    rw [hp] at hpc
    cases hpc

/-- A receiver about to send has sent signatures at most. -/
theorem ReceiverInv.sent_of_sending {f : Fs} (hinv : S.ReceiverInv f i h)
    (hpc : h.pc.isSending = true) :
    ∃ sigs, h.sent <+: S.prologue i ++ [sigRequest sigs] := by
  obtain hbefore | ⟨w, hafter⟩ := hinv
  · obtain ⟨sigs, -, hpre⟩ := hbefore.sent
    exact ⟨sigs, hpre⟩
  · have hat := hafter.at_pc
    cases hp : h.pc with
    | sendAction | sigSend =>
      rw [hp] at hat
      exact hat.elim
    | running es r =>
      rw [hp] at hat hpc
      obtain ⟨-, -, ⟨-, -, -, ⟨d, rfl, -⟩ | ⟨rfl, -⟩⟩ | ⟨-, -, -, ⟨-, sigs, -, hs⟩ | rfl⟩⟩ := hat
      · cases hpc
      · cases hpc
      · exact ⟨sigs, hs ▸ List.prefix_rfl⟩
      · cases hpc
    | _ =>
      rw [hp] at hpc
      cases hpc

/-- **Two sides about to send** have nothing on the way to the encoder, or
nothing on the way to the receiver. -/
theorem toward_encoder (hreg : S.Regular) (henc : S.Encodes enc) (h : S.Reachable fs s)
    (hsend : ∀ i, (s i).pc.isSending = true) : toward s enc = [] ∨ toward s enc.other = [] := by
  obtain ⟨hencoder, hreceiver⟩ := session_invariant hreg henc h
  rcases hencoder.got_of_sending (hsend enc) with hnil | ⟨sigs, hmem⟩
  · refine .inr ?_
    rw [toward, Side.other_other, hnil, Fifo.inFlight]
    exact List.drop_nil
  · -- the signatures are the last that was sent
    obtain ⟨sigs', hpre⟩ := hreceiver.sent_of_sending (hsend enc.other)
    obtain ⟨rest, hrest⟩ := received_isPrefix h enc
    have hlong : (S.prologue enc.other).length < (s enc).received.length := by
      by_contra hle
      have hsub : (s enc).received <+: S.prologue enc.other :=
        List.prefix_of_prefix_length_le ((received_isPrefix h enc).trans hpre)
          (List.prefix_append _ _) (by omega)
      exact sigRequest_notMem_prologue _ _ (hsub.subset hmem)
    have hlen := hpre.length_le
    simp only [← hrest, List.length_append, List.length_singleton] at hlen
    have hnil : rest = [] := List.length_eq_zero_iff.mp (by omega)
    refine .inl ?_
    rw [toward, ← hrest, hnil, List.append_nil, Fifo.inFlight]
    exact List.drop_length

/-! ### Nothing more can happen -/

section Halted

variable (hhalt : Halted S.net.step s)
include hhalt

/-- A side that waits has nothing to take. -/
theorem toward_of_halted (hpc : (s i).pc = .recv) : toward s i = [] := by
  rcases hin : toward s i with - | ⟨m, ms⟩
  · rfl
  · have hnone := host_step_eq_none (e := .recv m) (by simp [allows, hin]) (hhalt (i, _))
    simp [Host.step, hpc] at hnone

/-- A side that waits has not seen the end of its stream. -/
theorem txDropped_of_halted (hpc : (s i).pc = .recv) : (s i.other).txDropped = false := by
  by_contra htx
  have hnone := host_step_eq_none (S := S) (e := .recvEnd)
    (by simpa [allows, toward_of_halted hhalt hpc] using htx) (hhalt (i, _))
  simp [Host.step, hpc] at hnone

/-- A side about to send has its peer. -/
theorem returned_of_halted (hpc : (s i).pc.isSending = true) : (s i.other).returned = false := by
  by_contra hret
  have hallow : S.allows s i .fail = true := by
    simp only [allows, hpc, Bool.true_and, Bool.or_eq_true]
    exact .inr (by simpa using hret)
  have hnone := host_step_eq_none hallow (hhalt (i, .fail))
  simp only [Host.step, Host.stepFail] at hnone
  cases hp : (s i).pc with
  | sendAction | sigSend => simp [hp] at hnone
  | running es r =>
    rcases es with - | ⟨m | d | ⟨path, cache, ts⟩, es⟩
    · simp [hp, Pc.isSending] at hpc
    · simp [hp] at hnone
    · simp [hp, Pc.isSending] at hpc
    · simp [hp, Pc.isSending] at hpc
  | _ => simp [hp, Pc.isSending] at hpc

/-- Where nothing can happen a side waits for a message, or for room on its
stream, or has returned. -/
theorem idle_of_halted (hchannel : ∀ i, 0 < S.channelCapacity i)
    (hwriter : ∀ i, 0 < S.writerCapacity i) (h : S.Reachable fs s) (i : Side) :
    ((s i).pc = .recv ∨ (s i).returned = true) ∨
      (s i).pc.isSending = true ∧ toward s i.other ≠ [] := by
  by_cases hblocked : (s i).pc.isSending = true ∧ toward s i.other ≠ []
  · exact .inr hblocked
  · refine .inl ?_
    have hlt := side_invariant h (I := fun _ h => ∀ k, h.writerTx = some k → k < h.writers.length)
      (by rintro (- | -) k hk <;> cases hk)
      (fun s i e h' _ hI _ hm => Host.Move.writerTx_lt hm (hI i)) i
    have hallow : S.allows s i .ok = true := by
      simp only [allows, Bool.or_eq_true, Bool.not_eq_true', decide_eq_true_eq]
      by_cases hsend : (s i).pc.isSending = true
      · rw [not_and, not_not] at hblocked
        rw [hblocked hsend]
        exact .inr (hchannel i)
      · exact .inl (by simpa using hsend)
    refine @Host.idle S.crates (S.config i) S.action _ _ (hwriter i) hlt ?_ fun k ev hev => ?_
    · exact host_step_eq_none hallow (hhalt (i, .ok))
    · refine host_step_eq_none ?_ (hhalt (i, .writer k ev))
      cases ev with
      | fault => exact absurd rfl hev
      | _ => rfl

/-- The writers of a task that has returned have ended. -/
theorem writers_ended_of_halted (h : S.Reachable fs s) (hret : (s i).returned = true) :
    ∀ w ∈ (s i).writers, w.ended = true := by
  intro w hw
  have htx : (s i).writerTx = none :=
    side_invariant h (I := fun _ h => h.returned = true → h.writerTx = none)
      (by rintro (- | -) hr <;> cases hr)
      (fun s i e h' _ hI _ hm => hm.writerTx_of_returned (hI i)) i hret
  obtain ⟨k, hk⟩ := List.mem_iff_getElem?.mp hw
  by_contra hended
  obtain ⟨ev, hev, hstep⟩ := @Writer.exists_step_of_closed w (s i).fs (by simpa using hended)
  have hallow : S.allows s i (.writer k ev) = true := by
    cases ev with
    | fault => exact absurd rfl hev
    | _ => rfl
  have hnone := host_step_eq_none hallow (hhalt (i, _))
  simp only [Host.step, Host.stepWriter, hk, htx, Option.map_eq_none_iff] at hnone
  exact hstep (by simpa using hnone)

end Halted

/-- **An exchange halts only when it is over.**  If the action of the plan asks
for something and the client will ask for it, and only local reads and writers
fail by themselves, then in a reachable state where nothing more can happen both
tasks have returned and all their writers have ended. -/
theorem over_of_halted (hreg : S.Regular) (hplan : S.Planned) (hlocal : S.LocalFaults)
    (hchannel : ∀ i, 0 < S.channelCapacity i) (hwriter : ∀ i, 0 < S.writerCapacity i)
    (hreq : S.Requested (fs .client)) (h : S.Reachable fs s) (hhalt : Halted S.net.step s)
    (i : Side) : (s i).returned = true ∧ ∀ w ∈ (s i).writers, w.ended = true := by
  obtain ⟨enc, henc⟩ : ∃ enc, S.Encodes enc :=
    hplan.cases.resolve_right fun hskip => hreq.1 hskip
  have hidle := idle_of_halted hhalt hchannel hwriter h
  -- nobody waits for room on a stream
  have hquiet : ∀ i, (s i).pc = .recv ∨ (s i).returned = true := by
    intro i
    refine (hidle i).resolve_right ?_
    rintro ⟨hsend, hfull⟩
    rcases hidle i.other with (hpc | hret) | ⟨hsend', hfull'⟩
    · exact hfull (toward_of_halted hhalt hpc)
    · rw [returned_of_halted hhalt hsend] at hret
      cases hret
    · rw [Side.other_other] at hfull'
      have hboth : ∀ j, (s j).pc.isSending = true := by
        intro j
        by_cases hj : i = j
        · exact hj ▸ hsend
        · exact Side.eq_other_of_ne hj ▸ hsend'
      rcases toward_encoder hreg henc h hboth with hnil | hnil <;> by_cases hi : i = enc
      · exact hfull' (hi ▸ hnil)
      · exact hfull (by rwa [← Side.eq_other_of_ne hi])
      · exact hfull (hi ▸ hnil)
      · refine hfull' ?_
        rw [← Side.other_other i, ← Side.eq_other_of_ne hi]
        exact hnil
  have hreturned : ∀ i, (s i).returned = true := by
    -- a side that waits would be told that its peer is gone
    have hnext : ∀ i, (s i.other).returned = true → (s i).returned = true := by
      intro i hret
      refine (hquiet i).resolve_left fun hpc => ?_
      have htx := txDropped_of_halted hhalt hpc
      simp [Host.txDropped, hret] at htx
    have hclient : (s .client).returned = true := by
      by_contra hlive
      have hlive' : (s .client).returned = false := by simpa using hlive
      have hcpc := (hquiet .client).resolve_right hlive
      have hspc := (hquiet .server).resolve_right fun hret => hlive (hnext .client hret)
      refine not_stuck hplan hlocal hchannel hwriter hreq h ⟨?_, hlive', ?_, ?_, hhalt⟩
      · rw [hcpc]
        exact Pc.noConfusion
      · exact toward_of_halted hhalt hcpc
      · exact toward_of_halted hhalt hspc
    intro i
    rcases i with - | -
    · exact hclient
    · exact hnext .server hclient
  exact ⟨hreturned i, writers_ended_of_halted hhalt h (hreturned i)⟩

end Setup

end Harmonic
